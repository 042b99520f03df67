import CoinData.KeyedSegments
import CoinData.Runs
import Mathlib.Algebra.Order.Ring.Int
import Mathlib.Logic.Function.Basic

/-!
# Which segment a `Shm` is attached to

A `Shm` has the path of a key file. Its key is made from the inode of this
file when it is constructed, and the file is made if there is none. Who asks
for the number of attachments makes the key anew, and again the file if there
is none; while to destroy the segment is to remove the file too.

The constructor destroys a segment that nobody is attached to, makes another
one with the key it has, and is attached to it: without a file whose key this
would be. Whoever asks then makes a file with another inode and finds another
segment or none. The same happens to those who are attached when a constructor
fails to attach at the address it was asked for, since it destroys the segment
before it throws. `ShmWorld.runAgrees_iff` says that nothing else goes wrong.

The calls of different processes do not overlap. A construction is one step:
the constructor has a lock, but its key is made before it has got it. What the
system answers is given with the call. The key of a file is `ftok`
of its inode, about which nothing is assumed here except that different inodes
have different keys. Which directory the files are in is left out, and so is
the size.
-/

/-- **A `Shm`**: its key file, and the key that was made when it was
constructed. -/
structure Shm where
  keyFile : String
  key : ℤ
deriving DecidableEq, Repr

/-- **The system and the `Shm`s that live.** Each is attached to at most one
segment, so that it is known by it who is attached. -/
structure ShmWorld where
  files : InodeTable String
  segments : KeyedSegments ℤ ℕ
  objects : ℕ → Option Shm

/-- **A construction**: the key file, whether an address is asked for, and
whether the system can make a segment and attach it (at this address). -/
structure ShmRequest where
  keyFile : String
  addr : Bool
  creates : Bool
  attaches : Bool
deriving DecidableEq, Repr

/-- What is done with a `Shm`. -/
inductive ShmStep where
  | construct (o : ℕ) (r : ShmRequest)
  | destruct (o : ℕ)
  | numOfAttach (o : ℕ)
  /-- The process of the `Shm` ends without its destructor. -/
  | crash (o : ℕ)
deriving DecidableEq, Repr

namespace ShmWorld

variable (ftok : ℕ → ℤ)

/-- `get_key_`. -/
def getKey (w : ShmWorld) (keyFile : String) : ShmWorld × ℤ :=
  let (files, inode) := w.files.ensure keyFile
  ({ w with files := files }, ftok inode)

/-- `num_of_attach`. -/
def numOfAttach (w : ShmWorld) (keyFile : String) : ShmWorld × ℕ :=
  let (w, key) := w.getKey ftok keyFile
  if 0 < key then
    match w.segments.get key with
    | some seg => (w, w.segments.nattch seg)
    | none => (w, 0)
  else (w, 0)

/-- `destroy`. -/
def destroy (w : ShmWorld) (x : Shm) : ShmWorld :=
  if x.key < 0 then w
  else
    match w.segments.get x.key with
    | none => w
    | some seg =>
      { w with segments := w.segments.remove seg, files := w.files.remove x.keyFile }

/-- `create`. -/
def create (w : ShmWorld) (x : Shm) (creates : Bool) : ShmWorld :=
  if x.key < 0 then w
  else if creates then { w with segments := w.segments.create x.key }
  else w

/-- `attach`, and whether the `Shm` has an address then. -/
def attach (w : ShmWorld) (o : ℕ) (x : Shm) (attaches : Bool) : ShmWorld × Bool :=
  if x.key < 0 then (w, false)
  else
    match w.segments.get x.key with
    | none => (w, false)
    | some seg =>
      if attaches then ({ w with segments := w.segments.attach o seg }, true) else (w, false)

/-- The constructor from where it attaches. It throws if it is not attached at
the address that was asked for. -/
def place (w : ShmWorld) (o : ℕ) (x : Shm) (r : ShmRequest) : ShmWorld :=
  let (w, attached) := w.attach o x r.attaches
  if r.addr ∧ ¬ attached then w.destroy x
  else { w with objects := Function.update w.objects o (some x) }

/-- **The constructor.** A segment that nobody is attached to is destroyed
first. -/
def construct (w : ShmWorld) (o : ℕ) (r : ShmRequest) : ShmWorld :=
  let (w, key) := w.getKey ftok r.keyFile
  let x : Shm := ⟨r.keyFile, key⟩
  let (w, n) := w.numOfAttach ftok r.keyFile
  let w := if n = 0 then w.destroy x else w
  let w := w.create x r.creates
  w.place o x r

/-- **The destructor.** -/
def destruct (w : ShmWorld) (o : ℕ) (x : Shm) : ShmWorld :=
  let w := { w with segments := w.segments.detach o }
  let (w, n) := w.numOfAttach ftok x.keyFile
  let w := if n = 0 then w.destroy x else w
  { w with objects := Function.update w.objects o none }

/-- Take a step, if it is possible. -/
def next (w : ShmWorld) : ShmStep → Option ShmWorld
  | .construct o r =>
    match w.objects o with
    | none => some (w.construct ftok o r)
    | some _ => none
  | .destruct o => (w.objects o).map fun x => w.destruct ftok o x
  | .numOfAttach o => (w.objects o).map fun x => (w.numOfAttach ftok x.keyFile).1
  | .crash o =>
    (w.objects o).map fun _ =>
      { w with
        segments := w.segments.detach o
        objects := Function.update w.objects o none }

/-- A `Shm` that lives and is attached to a segment. -/
def Attached (w : ShmWorld) (o : ℕ) (x : Shm) (seg : ℕ) : Prop :=
  w.objects o = some x ∧ (o, seg) ∈ w.segments.attached

/-- **The `Shm`s agree**: `num_of_attach` is the number of those attached to the
segment that the `Shm` is attached to, and two with the same key file are
attached to the same segment. -/
structure Agrees (w : ShmWorld) : Prop where
  count : ∀ o x seg, w.Attached o x seg →
    (w.numOfAttach ftok x.keyFile).2 = w.segments.nattch seg
  same : ∀ o x seg o' x' seg', w.Attached o x seg → w.Attached o' x' seg' →
    x.keyFile = x'.keyFile → seg = seg'

/-- The segment with a key, which is positive. -/
def lookup (w : ShmWorld) (key : ℤ) : Option ℕ :=
  if 0 < key then w.segments.byKey key else none

/-- The segment with the key of a key file, which is made if there is none. -/
def found (w : ShmWorld) (keyFile : String) : Option ℕ :=
  w.lookup (ftok (w.files.ensure keyFile).2)

/-- **What a construction must not find**: a segment that nobody is attached to,
if it gets another one in its place; and a segment that somebody is attached
to, if it is not attached itself at the address that was asked for. -/
def Fits (w : ShmWorld) : ShmStep → Prop
  | .construct _ r => ∀ seg ∈ w.found ftok r.keyFile,
      if w.segments.nattch seg = 0 then ¬ (r.creates ∧ r.attaches) else ¬ (r.addr ∧ ¬ r.attaches)
  | _ => True

instance (w : ShmWorld) : (l : ShmStep) → Decidable (w.Fits ftok l)
  | .construct _ r =>
    inferInstanceAs (Decidable (∀ seg ∈ w.found ftok r.keyFile,
      if w.segments.nattch seg = 0 then ¬ (r.creates ∧ r.attaches)
      else ¬ (r.addr ∧ ¬ r.attaches)))
  | .destruct _ | .numOfAttach _ | .crash _ => inferInstanceAs (Decidable True)

/-- **What processes that crashed leave behind**: key files, and segments that
nobody is attached to. -/
structure Leftover (w : ShmWorld) : Prop where
  files : w.files.WellFormed
  segments : w.segments.WellFormed
  attached : w.segments.attached = []
  objects : ∀ o, w.objects o = none

end ShmWorld

/-- **The system**, from any leftovers. -/
def shmSystem (ftok : ℕ → ℤ) : TransitionSystem ShmWorld ShmStep where
  init := ShmWorld.Leftover
  step w l w' := w.next ftok l = some w'

namespace ShmWorld

variable {ftok : ℕ → ℤ} {w w' : ShmWorld} {x : Shm} {o seg : ℕ} {key : ℤ} {keyFile : String}

/-! ## What the calls do -/

theorem get_of_lookup (hkey : ¬ key < 0) : w.segments.get key = w.lookup key := by
  unfold KeyedSegments.get lookup
  by_cases hzero : key = 0
  · rw [if_pos hzero, if_neg (by omega)]
  · rw [if_neg hzero, if_pos (by omega)]

theorem lookup_eq_some : w.lookup key = some seg ↔ 0 < key ∧ w.segments.byKey key = some seg :=
  Option.ite_none_right_eq_some

/-- The key file is there. -/
def opened (w : ShmWorld) (keyFile : String) : ShmWorld :=
  { w with files := (w.files.ensure keyFile).1 }

/-- How many are attached to the segment that is found. -/
def users (ftok : ℕ → ℤ) (w : ShmWorld) (keyFile : String) : ℕ :=
  match w.found ftok keyFile with
  | some seg => w.segments.nattch seg
  | none => 0

/-- **To ask for the number** makes the key file, and nothing else. -/
theorem numOfAttach_eq :
    w.numOfAttach ftok keyFile = (w.opened keyFile, w.users ftok keyFile) := by
  unfold numOfAttach getKey users found lookup opened
  dsimp only
  by_cases hkey : 0 < ftok (w.files.ensure keyFile).2
  · rw [if_pos hkey, if_pos hkey]
    unfold KeyedSegments.get
    rw [if_neg (by omega)]
    split <;> simp_all
  · rw [if_neg hkey, if_neg hkey]

theorem destroy_of_none (h : w.lookup x.key = none) : w.destroy x = w := by
  unfold destroy
  by_cases hkey : x.key < 0
  · rw [if_pos hkey]
  · rw [if_neg hkey, get_of_lookup hkey, h]

theorem not_neg_of_lookup (h : w.lookup key = some seg) : ¬ key < 0 := by
  have hpos := (lookup_eq_some.mp h).1
  omega

theorem destroy_of_some (h : w.lookup x.key = some seg) : w.destroy x
    = { w with segments := w.segments.remove seg, files := w.files.remove x.keyFile } := by
  unfold destroy
  rw [if_neg (not_neg_of_lookup h), get_of_lookup (not_neg_of_lookup h), h]

theorem attach_of_none (h : w.lookup x.key = none) (attaches : Bool) :
    w.attach o x attaches = (w, false) := by
  unfold attach
  by_cases hkey : x.key < 0
  · rw [if_pos hkey]
  · rw [if_neg hkey, get_of_lookup hkey, h]

theorem attach_of_some (h : w.lookup x.key = some seg) (attaches : Bool) : w.attach o x attaches
    = if attaches then ({ w with segments := w.segments.attach o seg }, true)
      else (w, false) := by
  unfold attach
  rw [if_neg (not_neg_of_lookup h), get_of_lookup (not_neg_of_lookup h), h]

/-- There is no second segment with a key. -/
theorem create_of_some (h : w.lookup x.key = some seg) (creates : Bool) :
    w.create x creates = w := by
  obtain ⟨hpos, hkey⟩ := lookup_eq_some.mp h
  have hcreate : w.segments.create x.key = w.segments := by
    unfold KeyedSegments.create
    rw [if_neg (by omega), hkey]
  unfold create
  rw [if_neg (not_neg_of_lookup h), hcreate]
  split <;> rfl

/-- What the constructor makes. -/
def shm (ftok : ℕ → ℤ) (w : ShmWorld) (keyFile : String) : Shm :=
  ⟨keyFile, ftok (w.files.ensure keyFile).2⟩

/-- What is found does not change when the file that has been made is looked
for again. -/
theorem numOfAttach_opened : (w.opened keyFile).numOfAttach ftok keyFile
    = (w.opened keyFile, w.users ftok keyFile) := by
  rw [numOfAttach_eq]
  unfold opened users found
  dsimp only
  rw [InodeTable.ensure_of_some InodeTable.ensure_inode]
  rfl

/-- **The constructor.** -/
theorem construct_eq (r : ShmRequest) : w.construct ftok o r
    = ((if w.users ftok r.keyFile = 0 then (w.opened r.keyFile).destroy (w.shm ftok r.keyFile)
        else w.opened r.keyFile).create (w.shm ftok r.keyFile) r.creates).place o
      (w.shm ftok r.keyFile) r := by
  have hnum : (w.opened r.keyFile).numOfAttach ftok r.keyFile
      = (w.opened r.keyFile, w.users ftok r.keyFile) := numOfAttach_opened
  unfold construct getKey
  dsimp only
  unfold opened at hnum
  rw [hnum]
  rfl

/-! ## The invariant -/

/-- **The key of a `Shm`** is that of an inode that was made, and which is no
other file's. -/
def Keyed (ftok : ℕ → ℤ) (w : ShmWorld) (x : Shm) : Prop :=
  ∃ i < w.files.next, x.key = ftok i ∧ ∀ path, w.files.inode path = some i → path = x.keyFile

/-- **Where a `Shm` finds a segment**: under its key, which is the one of its
key file. -/
def Placed (ftok : ℕ → ℤ) (w : ShmWorld) (x : Shm) (seg : ℕ) : Prop :=
  w.lookup x.key = some seg ∧ ∃ i, w.files.inode x.keyFile = some i ∧ ftok i = x.key

/-- **The invariant**: who is attached to a segment lives, and finds it. -/
structure Inv (ftok : ℕ → ℤ) (w : ShmWorld) : Prop where
  files : w.files.WellFormed
  segments : w.segments.WellFormed
  keyed : ∀ o x, w.objects o = some x → w.Keyed ftok x
  attached : ∀ o seg, (o, seg) ∈ w.segments.attached →
    ∃ x, w.objects o = some x ∧ w.Placed ftok x seg

theorem Leftover.inv (h : w.Leftover) : w.Inv ftok where
  files := h.files
  segments := h.segments
  keyed o x hx := by
    rw [h.objects o] at hx
    cases hx
  attached o seg hmem := by
    rw [h.attached] at hmem
    cases hmem

/-- **Who is attached finds its segment** under the key of its key file. -/
theorem Inv.found_of_attached (h : w.Inv ftok) (hatt : w.Attached o x seg) :
    w.found ftok x.keyFile = some seg := by
  obtain ⟨hx, hmem⟩ := hatt
  obtain ⟨x', hx', hlookup, i, hinode, hkey⟩ := h.attached o seg hmem
  cases hx.symm.trans hx'
  unfold found
  rw [InodeTable.ensure_of_some hinode, hkey]
  exact hlookup

theorem Inv.agrees (h : w.Inv ftok) : w.Agrees ftok where
  count o x seg hatt := by
    rw [numOfAttach_eq]
    unfold users
    rw [h.found_of_attached hatt]
  same o x seg o' x' seg' hatt hatt' heq := by
    have hfound := h.found_of_attached hatt
    rw [heq, h.found_of_attached hatt'] at hfound
    exact (Option.some.inj hfound).symm

/-- Nobody is attached with a key file that finds nothing in use. -/
theorem Inv.keyFile_ne (h : w.Inv ftok)
    (hfound : ∀ seg ∈ w.found ftok keyFile, w.segments.nattch seg = 0) :
    ∀ o x seg, w.Attached o x seg → x.keyFile ≠ keyFile := by
  rintro o x seg hatt rfl
  have hpos := KeyedSegments.nattch_pos.mpr ⟨o, hatt.2⟩
  exact absurd (hfound seg (h.found_of_attached hatt)) (Nat.ne_of_gt hpos)

theorem Inv.ensure (h : w.Inv ftok) (keyFile : String) :
    ({ w with files := (w.files.ensure keyFile).1 } : ShmWorld).Inv ftok := by
  refine ⟨h.files.ensure, h.segments, fun o x hx => ?_, fun o seg hmem => ?_⟩
  · obtain ⟨i, hlt, hkey, hpath⟩ := h.keyed o x hx
    refine ⟨i, Nat.lt_of_lt_of_le hlt InodeTable.le_ensure_next, hkey, fun path hinode => ?_⟩
    rcases InodeTable.inode_of_ensure hinode with hinode | ⟨_, rfl⟩
    · exact hpath path hinode
    · exact absurd hlt (Nat.lt_irrefl _)
  · obtain ⟨x, hx, hlookup, i, hinode, hkey⟩ := h.attached o seg hmem
    exact ⟨x, hx, hlookup, i, InodeTable.ensure_inode_of_some hinode, hkey⟩

/-- The key of a file that is there. -/
theorem Inv.keyed_of_inode (h : w.Inv ftok) {i : ℕ} (hinode : w.files.inode keyFile = some i) :
    w.Keyed ftok ⟨keyFile, ftok i⟩ :=
  ⟨i, h.files.lt _ i hinode, rfl, fun path hpath => h.files.inj path keyFile i hpath hinode⟩

theorem Inv.detach (h : w.Inv ftok) (o : ℕ) :
    ({ w with segments := w.segments.detach o } : ShmWorld).Inv ftok := by
  refine ⟨h.files, ⟨h.segments.inj, h.segments.lt⟩, h.keyed, fun p seg hmem => ?_⟩
  exact h.attached p seg ((List.mem_filter.mp hmem).1)

/-- A `Shm` which is attached to nothing is gone. -/
theorem Inv.drop (h : w.Inv ftok) (hnot : ∀ seg, (o, seg) ∉ w.segments.attached) :
    ({ w with objects := Function.update w.objects o none } : ShmWorld).Inv ftok := by
  refine ⟨h.files, h.segments, fun p x hx => ?_, fun p seg hmem => ?_⟩
  · by_cases hp : p = o
    · subst hp
      cases (Function.update_self p none w.objects).symm.trans hx
    · exact h.keyed p x ((Function.update_of_ne hp _ _).symm.trans hx)
  · have hp : p ≠ o := by
      rintro rfl
      exact hnot seg hmem
    obtain ⟨x, hx, hplaced⟩ := h.attached p seg hmem
    exact ⟨x, (Function.update_of_ne hp _ _).trans hx, hplaced⟩

/-- A `Shm` lives that is attached to nothing. -/
theorem Inv.add (h : w.Inv ftok) (hnew : w.objects o = none) (hx : w.Keyed ftok x) :
    ({ w with objects := Function.update w.objects o (some x) } : ShmWorld).Inv ftok := by
  refine ⟨h.files, h.segments, fun p y hy => ?_, fun p seg hmem => ?_⟩
  · by_cases hp : p = o
    · subst hp
      cases (Function.update_self p (some x) w.objects).symm.trans hy
      exact hx
    · exact h.keyed p y ((Function.update_of_ne hp _ _).symm.trans hy)
  · obtain ⟨y, hy, hplaced⟩ := h.attached p seg hmem
    have hp : p ≠ o := by
      rintro rfl
      rw [hnew] at hy
      cases hy
    exact ⟨y, (Function.update_of_ne hp _ _).trans hy, hplaced⟩

/-- It is attached. -/
theorem Inv.attach (h : w.Inv ftok) (hx : w.objects o = some x) (hplaced : w.Placed ftok x seg) :
    ({ w with segments := w.segments.attach o seg } : ShmWorld).Inv ftok := by
  refine ⟨h.files, ⟨h.segments.inj, h.segments.lt⟩, h.keyed, fun p seg' hmem => ?_⟩
  rcases List.mem_cons.mp hmem with heq | hmem
  · cases heq
    exact ⟨x, hx, hplaced⟩
  · exact h.attached p seg' hmem

theorem Inv.create (h : w.Inv ftok) (x : Shm) (creates : Bool) : (w.create x creates).Inv ftok := by
  unfold ShmWorld.create
  split
  · exact h
  split
  · refine ⟨h.files, h.segments.create, h.keyed, fun o seg hmem => ?_⟩
    dsimp only at hmem
    rw [KeyedSegments.create_attached] at hmem
    obtain ⟨y, hy, hlookup, hinode⟩ := h.attached o seg hmem
    obtain ⟨hpos, hkey⟩ := lookup_eq_some.mp hlookup
    exact ⟨y, hy, lookup_eq_some.mpr ⟨hpos, KeyedSegments.byKey_create.mpr (.inl hkey)⟩, hinode⟩
  · exact h

/-- **A segment is destroyed with the key file**, if nobody is attached who has
this file. -/
theorem Inv.destroy (h : w.Inv ftok) (hftok : Function.Injective ftok) (hx : w.Keyed ftok x)
    (hfree : ∀ o y seg, w.Attached o y seg → y.keyFile ≠ x.keyFile) : (w.destroy x).Inv ftok := by
  cases hlookup : w.lookup x.key with
  | none =>
    rw [destroy_of_none hlookup]
    exact h
  | some seg =>
    rw [destroy_of_some hlookup]
    refine ⟨h.files.remove, h.segments.remove, fun o y hy => ?_, fun o seg' hmem => ?_⟩
    · obtain ⟨i, hlt, hkey, hpath⟩ := h.keyed o y hy
      exact ⟨i, hlt, hkey, fun path hinode => hpath path (InodeTable.inode_of_remove hinode)⟩
    · obtain ⟨y, hy, hlookup', i, hinode, hkey⟩ := h.attached o seg' hmem
      have hne := hfree o y seg' ⟨hy, hmem⟩
      obtain ⟨hpos, hbyKey⟩ := lookup_eq_some.mp hlookup'
      have hother : w.segments.byKey y.key ≠ some seg := by
        intro heq
        have hkeys := h.segments.inj _ _ seg heq (lookup_eq_some.mp hlookup).2
        obtain ⟨j, _, hj, hpath⟩ := hx
        obtain rfl : i = j := hftok (hkey.trans (hkeys.trans hj))
        exact hne (hpath y.keyFile hinode)
      refine ⟨y, hy, lookup_eq_some.mpr ⟨hpos, ?_⟩, i, ?_, hkey⟩
      · exact (KeyedSegments.remove_byKey_of_ne hother).trans hbyKey
      · exact (InodeTable.remove_inode_of_ne hne).trans hinode

/-! ## Steps that fit -/

theorem create_files (x : Shm) (creates : Bool) : (w.create x creates).files = w.files := by
  unfold create
  split
  · rfl
  split <;> rfl

theorem attached_create {y : Shm} {p : ℕ} (creates : Bool) :
    (w.create x creates).Attached p y seg ↔ w.Attached p y seg := by
  unfold create
  split
  · rfl
  split
  · unfold Attached
    rw [KeyedSegments.create_attached]
  · rfl

theorem create_objects (x : Shm) (creates : Bool) : (w.create x creates).objects = w.objects := by
  unfold create
  split
  · rfl
  split <;> rfl

theorem destroy_objects (x : Shm) : (w.destroy x).objects = w.objects := by
  cases h : w.lookup x.key with
  | none => rw [destroy_of_none h]
  | some seg => rw [destroy_of_some h]

theorem destroy_attached (x : Shm) : (w.destroy x).segments.attached = w.segments.attached := by
  cases h : w.lookup x.key with
  | none => rw [destroy_of_none h]
  | some seg =>
    rw [destroy_of_some h]
    rfl

theorem create_false (x : Shm) : w.create x false = w := by
  unfold create
  split <;> rfl

/-- **There is no segment with its key** when a `Shm` has destroyed one. -/
theorem lookup_destroy (x : Shm) : (w.destroy x).lookup x.key = none := by
  cases h : w.lookup x.key with
  | none => rw [destroy_of_none h, h]
  | some seg =>
    obtain ⟨hpos, hkey⟩ := lookup_eq_some.mp h
    rw [destroy_of_some h]
    unfold lookup
    rw [if_pos hpos]
    exact KeyedSegments.remove_byKey_self hkey

/-- The file is gone, the inodes are not. -/
theorem keyed_destroy {y : Shm} (h : w.Keyed ftok y) : (w.destroy x).Keyed ftok y := by
  cases hlookup : w.lookup x.key with
  | none =>
    rw [destroy_of_none hlookup]
    exact h
  | some seg =>
    rw [destroy_of_some hlookup]
    obtain ⟨i, hlt, hkey, hpath⟩ := h
    exact ⟨i, hlt, hkey, fun path hinode => hpath path (InodeTable.inode_of_remove hinode)⟩

theorem keyed_create {y : Shm} (h : w.Keyed ftok y) (creates : Bool) :
    (w.create x creates).Keyed ftok y := by
  unfold Keyed
  rw [create_files]
  exact h

/-- **A `Shm` attaches**, or lives without a segment, or throws when nobody is
attached with its key file. -/
theorem Inv.place (h : w.Inv ftok) (hftok : Function.Injective ftok) {r : ShmRequest}
    (hx : w.Keyed ftok x) (hnew : w.objects o = none)
    (hfree : r.addr = true → r.attaches = false →
      ∀ o y seg, w.Attached o y seg → y.keyFile ≠ x.keyFile)
    (hinode : r.attaches = true → ∀ seg, w.lookup x.key = some seg →
      ∃ i, w.files.inode x.keyFile = some i ∧ ftok i = x.key) : (w.place o x r).Inv ftok := by
  unfold ShmWorld.place
  cases hlookup : w.lookup x.key with
  | none =>
    rw [attach_of_none hlookup]
    dsimp only
    split
    · rw [destroy_of_none hlookup]
      exact h
    · exact h.add hnew hx
  | some seg =>
    rw [attach_of_some hlookup]
    cases hattaches : r.attaches with
    | true =>
      have hself : Function.update w.objects o (some x) o = some x := Function.update_self _ _ _
      simpa using (h.add hnew hx).attach hself ⟨hlookup, hinode hattaches seg hlookup⟩
    | false =>
      by_cases haddr : r.addr = true
      · simpa [haddr] using h.destroy hftok hx (hfree haddr hattaches)
      · simpa [haddr] using h.add hnew hx

theorem keyed_shm (h : w.Inv ftok) (keyFile : String) :
    (w.opened keyFile).Keyed ftok (w.shm ftok keyFile) :=
  (h.ensure keyFile).keyed_of_inode InodeTable.ensure_inode

/-- **A construction that fits.** -/
theorem Inv.construct (h : w.Inv ftok) (hftok : Function.Injective ftok) {r : ShmRequest}
    (hnew : w.objects o = none) (hfits : w.Fits ftok (.construct o r)) :
    (w.construct ftok o r).Inv ftok := by
  have h₁ : (w.opened r.keyFile).Inv ftok := h.ensure r.keyFile
  have hx := keyed_shm h r.keyFile
  have hinode : ∃ i, (w.opened r.keyFile).files.inode r.keyFile = some i
      ∧ ftok i = (w.shm ftok r.keyFile).key := ⟨_, InodeTable.ensure_inode, rfl⟩
  rw [construct_eq]
  unfold users
  cases hfound : w.found ftok r.keyFile with
  | none =>
    have hlookup : (w.opened r.keyFile).lookup (w.shm ftok r.keyFile).key = none := hfound
    have hfree := h.keyFile_ne (by rw [hfound]; exact nofun)
    dsimp only
    rw [if_pos rfl, destroy_of_none hlookup]
    refine (h₁.create _ _).place hftok (keyed_create hx _) ?_ ?_ ?_
    · rw [create_objects]
      exact hnew
    · intro _ _ p y seg hatt
      have hatt := (attached_create _).mp hatt
      exact hfree p y seg hatt
    · intro _ _ _
      rw [create_files]
      exact hinode
  | some seg =>
    have hlookup : (w.opened r.keyFile).lookup (w.shm ftok r.keyFile).key = some seg := hfound
    have hfits := hfits seg hfound
    dsimp only
    by_cases hnone : w.segments.nattch seg = 0
    · -- it is destroyed, and no other one is attached in its place
      rw [if_pos hnone] at hfits ⊢
      have hfree : ∀ p y seg, w.Attached p y seg → y.keyFile ≠ r.keyFile := by
        refine h.keyFile_ne fun seg' hseg' => ?_
        cases hfound.symm.trans hseg'
        exact hnone
      refine ((h₁.destroy hftok hx hfree).create _ _).place hftok
        (keyed_create (keyed_destroy hx) _) ?_ ?_ ?_
      · rw [create_objects, destroy_objects]
        exact hnew
      · intro _ _ p y seg hatt
        have hatt := (attached_create _).mp hatt
        unfold Attached at hatt
        rw [destroy_objects, destroy_attached] at hatt
        exact hfree p y seg hatt
      · intro hattaches seg' hlookup'
        have hcreates : r.creates = false := by
          rw [← Bool.not_eq_true]
          exact fun hcreates => hfits ⟨hcreates, hattaches⟩
        rw [hcreates, create_false, lookup_destroy] at hlookup'
        cases hlookup'
    · rw [if_neg hnone] at hfits ⊢
      rw [create_of_some hlookup]
      refine h₁.place hftok hx hnew ?_ fun _ _ _ => hinode
      intro haddr hattaches
      exact absurd ⟨haddr, by simp [hattaches]⟩ hfits

/-- **A destruction.** The segment is destroyed only if nobody is attached who
has the key file. -/
theorem Inv.destruct (h : w.Inv ftok) (hftok : Function.Injective ftok)
    (hx : w.objects o = some x) : (w.destruct ftok o x).Inv ftok := by
  have h₁ := h.detach o
  have h₂ := h₁.ensure x.keyFile
  have hnot : ∀ seg, (o, seg) ∉ (w.segments.detach o).attached := by
    intro seg hmem
    simpa using (List.mem_filter.mp hmem).2
  unfold ShmWorld.destruct
  dsimp only
  rw [numOfAttach_eq]
  dsimp only
  split
  · next hnone =>
    refine (h₂.destroy hftok (h₂.keyed o x hx) (h₁.keyFile_ne fun seg hseg => ?_)).drop
      fun seg => ?_
    · unfold users at hnone
      rw [hseg] at hnone
      exact hnone
    rw [destroy_attached]
    exact hnot seg
  · exact h₂.drop hnot

theorem Inv.next {l : ShmStep} (h : w.Inv ftok) (hftok : Function.Injective ftok)
    (hfits : w.Fits ftok l) (hstep : w.next ftok l = some w') : w'.Inv ftok := by
  cases l with
  | construct o r =>
    unfold ShmWorld.next at hstep
    dsimp only at hstep
    split at hstep
    · next hnew =>
      cases hstep
      exact h.construct hftok hnew hfits
    · cases hstep
  | destruct o =>
    obtain ⟨x, hx, rfl⟩ := Option.map_eq_some_iff.mp hstep
    exact h.destruct hftok hx
  | numOfAttach o =>
    obtain ⟨x, hx, rfl⟩ := Option.map_eq_some_iff.mp hstep
    rw [numOfAttach_eq]
    exact h.ensure x.keyFile
  | crash o =>
    obtain ⟨x, hx, rfl⟩ := Option.map_eq_some_iff.mp hstep
    refine (h.detach o).drop fun seg hmem => ?_
    simpa using (List.mem_filter.mp hmem).2

/-! ## Steps that do not -/

/-- **Nobody is attached to what an inode that was not made yet would find.** -/
theorem Inv.nattch_fresh (h : w.Inv ftok) (hftok : Function.Injective ftok)
    (hseg : w.segments.byKey (ftok w.files.next) = some seg) : w.segments.nattch seg = 0 := by
  by_contra hne
  obtain ⟨o, hmem⟩ := KeyedSegments.nattch_pos.mp (Nat.pos_of_ne_zero hne)
  obtain ⟨x, hx, hlookup, _⟩ := h.attached o seg hmem
  obtain ⟨i, hlt, hkey, _⟩ := h.keyed o x hx
  have hkeys := h.segments.inj _ _ seg (lookup_eq_some.mp hlookup).2 hseg
  exact absurd (hftok (hkey.symm.trans hkeys)) (Nat.ne_of_lt hlt)

/-- Who is attached with a key file that is gone counts nobody. -/
theorem not_agrees (hatt : w.Attached o x seg)
    (hinode : w.files.inode x.keyFile = none)
    (hfresh : ∀ seg', w.lookup (ftok w.files.next) = some seg' → w.segments.nattch seg' = 0) :
    ¬ w.Agrees ftok := by
  intro hagrees
  have hcount := hagrees.count o x seg hatt
  have hpos := KeyedSegments.nattch_pos.mpr ⟨o, hatt.2⟩
  rw [numOfAttach_eq] at hcount
  unfold users found at hcount
  rw [InodeTable.ensure_of_none hinode] at hcount
  dsimp only at hcount
  split at hcount
  · next seg' hseg' =>
    rw [hfresh seg' hseg'] at hcount
    omega
  · omega

/-- **It gets another segment in the place of one that nobody is attached
to.** -/
theorem not_agrees_of_unused (h : w.Inv ftok) (hftok : Function.Injective ftok) {r : ShmRequest}
    (hfound : w.found ftok r.keyFile = some seg) (hnone : w.segments.nattch seg = 0)
    (hcreates : r.creates = true) (hattaches : r.attaches = true) :
    ¬ (w.construct ftok o r).Agrees ftok := by
  have h₁ : (w.opened r.keyFile).Inv ftok := h.ensure r.keyFile
  have hlookup : (w.opened r.keyFile).lookup (w.shm ftok r.keyFile).key = some seg := hfound
  obtain ⟨hpos, hkey⟩ := lookup_eq_some.mp hlookup
  obtain ⟨i, hlt, hi, _⟩ := keyed_shm h r.keyFile
  let w₂ : ShmWorld := (w.opened r.keyFile).destroy (w.shm ftok r.keyFile)
  have hw₂ : w₂ = { w.opened r.keyFile with
      segments := (w.opened r.keyFile).segments.remove seg
      files := (w.opened r.keyFile).files.remove r.keyFile } := destroy_of_some hlookup
  have hcreate : w₂.create (w.shm ftok r.keyFile) true
      = { w₂ with segments := w₂.segments.create (w.shm ftok r.keyFile).key } :=
    if_neg (by omega)
  have hbyKey : w₂.segments.byKey (w.shm ftok r.keyFile).key = none := by
    rw [hw₂]
    exact KeyedSegments.remove_byKey_self hkey
  have hplaced : (w₂.create (w.shm ftok r.keyFile) true).lookup (w.shm ftok r.keyFile).key
      = some w₂.segments.next := by
    rw [hcreate]
    exact lookup_eq_some.mpr
      ⟨hpos, KeyedSegments.byKey_create.mpr (.inr ⟨hbyKey, by omega, rfl, rfl⟩)⟩
  have hconstruct : w.construct ftok o r = { w₂ with
      segments := (w₂.segments.create (w.shm ftok r.keyFile).key).attach o w₂.segments.next
      objects := Function.update w₂.objects o (some (w.shm ftok r.keyFile)) } := by
    have husers : w.users ftok r.keyFile = 0 := by
      unfold users
      rw [hfound]
      exact hnone
    rw [construct_eq, if_pos husers, hcreates]
    unfold ShmWorld.place
    rw [attach_of_some hplaced, hattaches, hcreate]
    simp
  rw [hconstruct]
  refine not_agrees (o := o) ⟨Function.update_self _ _ _, List.mem_cons_self⟩ ?_
    fun seg' hseg' => ?_
  · rw [hw₂]
    exact InodeTable.remove_inode_self
  · rw [hw₂] at hseg' ⊢
    obtain ⟨_, hseg'⟩ := lookup_eq_some.mp hseg'
    rcases KeyedSegments.byKey_create.mp hseg' with hseg' | ⟨_, _, hkeys, _⟩
    · have hseg' := (KeyedSegments.byKey_of_remove hseg').1
      have hne := Nat.ne_of_gt (h₁.segments.lt _ _ hseg')
      refine (KeyedSegments.nattch_attach_of_ne hne).trans (KeyedSegments.nattch_create.trans ?_)
      exact h₁.nattch_fresh hftok hseg'
    · exact absurd (hftok (hi.symm.trans hkeys.symm)) (Nat.ne_of_lt hlt)

/-- **It destroys a segment that somebody is attached to.** -/
theorem not_agrees_of_used (h : w.Inv ftok) (hftok : Function.Injective ftok) {r : ShmRequest}
    (hfound : w.found ftok r.keyFile = some seg) (hused : w.segments.nattch seg ≠ 0)
    (haddr : r.addr = true) (hattaches : r.attaches = false) :
    ¬ (w.construct ftok o r).Agrees ftok := by
  have h₁ : (w.opened r.keyFile).Inv ftok := h.ensure r.keyFile
  have hlookup : (w.opened r.keyFile).lookup (w.shm ftok r.keyFile).key = some seg := hfound
  obtain ⟨p, hmem⟩ := KeyedSegments.nattch_pos.mp (Nat.pos_of_ne_zero hused)
  obtain ⟨y, hy, hlookup', i, hinode, hkey⟩ := h₁.attached p seg hmem
  obtain ⟨j, _, hj, hpath⟩ := keyed_shm h r.keyFile
  have hkeys := h₁.segments.inj _ _ seg (lookup_eq_some.mp hlookup').2 (lookup_eq_some.mp hlookup).2
  obtain rfl : i = j := hftok (hkey.trans (hkeys.trans hj))
  have hyfile : y.keyFile = r.keyFile := hpath y.keyFile hinode
  have hconstruct : w.construct ftok o r = (w.opened r.keyFile).destroy (w.shm ftok r.keyFile) := by
    have husers : w.users ftok r.keyFile ≠ 0 := by
      unfold users
      rw [hfound]
      exact hused
    rw [construct_eq, if_neg husers, create_of_some hlookup]
    unfold ShmWorld.place
    rw [attach_of_some hlookup, hattaches]
    simp [haddr]
  rw [hconstruct, destroy_of_some hlookup]
  have hatt : ({ w.opened r.keyFile with
      segments := (w.opened r.keyFile).segments.remove seg
      files := (w.opened r.keyFile).files.remove r.keyFile } : ShmWorld).Attached p y seg :=
    ⟨hy, hmem⟩
  refine not_agrees hatt ?_ fun seg' hseg' => ?_
  · rw [hyfile]
    exact InodeTable.remove_inode_self
  · obtain ⟨_, hseg'⟩ := lookup_eq_some.mp hseg'
    exact h₁.nattch_fresh hftok (KeyedSegments.byKey_of_remove hseg').1

end ShmWorld

section Runs

variable {ftok : ℕ → ℤ}

/-- **A construction that does not fit breaks the agreement.** -/
theorem ShmWorld.not_agrees_of_not_fits {w w' : ShmWorld} {l : ShmStep} (h : w.Inv ftok)
    (hftok : Function.Injective ftok) (hstep : w.next ftok l = some w') (hl : ¬ w.Fits ftok l) :
    ¬ w'.Agrees ftok := by
  cases l with
  | construct o r =>
    have hconstruct : w' = w.construct ftok o r := by
      unfold ShmWorld.next at hstep
      dsimp only at hstep
      split at hstep
      · exact (Option.some.inj hstep).symm
      · cases hstep
    rw [hconstruct]
    obtain ⟨seg, hnot⟩ := not_forall.mp hl
    obtain ⟨hfound, hnot⟩ := Classical.not_imp.mp hnot
    split at hnot
    · next hnone =>
      obtain ⟨hcreates, hattaches⟩ := not_not.mp hnot
      exact not_agrees_of_unused h hftok hfound hnone hcreates hattaches
    · next hused =>
      obtain ⟨haddr, hattaches⟩ := not_not.mp hnot
      exact not_agrees_of_used h hftok hfound hused haddr (by simpa using hattaches)
  | destruct o => exact absurd trivial hl
  | numOfAttach o => exact absurd trivial hl
  | crash o => exact absurd trivial hl

/-- **The `Shm`s agree throughout a run**, from any leftovers, exactly if each
construction fits. -/
theorem ShmWorld.runAgrees_iff (hftok : Function.Injective ftok) {tr : List (ShmWorld × ShmStep)}
    {w : ShmWorld} (hr : (shmSystem ftok).Run tr w) :
    TransitionSystem.Throughout (Agrees ftok) tr w ↔ TransitionSystem.Met (Fits ftok) tr := by
  refine hr.forall_iff (J := Inv ftok) (fun w hw => ?_) (fun w l w' _ h hstep hl => ?_)
    fun w l w' _ h hstep hl => not_agrees_of_not_fits h hftok hstep hl
  · exact ⟨hw.inv.agrees, hw.inv⟩
  · have h' := h.next hftok hl hstep
    exact ⟨h'.agrees, h'⟩

/-- A construction for which the system does what is asked. -/
def ShmRequest.of (keyFile : String) : ShmRequest := ⟨keyFile, false, true, true⟩

/-- No key file, and no segment. -/
def ShmWorld.empty : ShmWorld := ⟨⟨fun _ => none, 0⟩, ⟨fun _ => none, 0, []⟩, fun _ => none⟩

theorem ShmWorld.leftover_empty : empty.Leftover where
  files := ⟨fun _ _ _ h => (Option.some_ne_none _ h.symm).elim,
    fun _ _ h => (Option.some_ne_none _ h.symm).elim⟩
  segments := ⟨fun _ _ _ h => (Option.some_ne_none _ h.symm).elim,
    fun _ _ h => (Option.some_ne_none _ h.symm).elim⟩
  attached := rfl
  objects _ := rfl

/-- Two are attached to one segment, and then the first one is gone. -/
theorem ShmWorld.agrees_two : ∃ (tr : _) (w : ShmWorld), (shmSystem fun i => i + 1).Run tr w
    ∧ tr.length = 3 ∧ w.segments.attached = [(1, 0)]
    ∧ TransitionSystem.Throughout (Agrees fun i => i + 1) tr w := by
  have htrace : (TransitionSystem.trace (next fun i => i + 1) [] empty
      [.construct 0 (.of "ctl"), .construct 1 (.of "ctl"), .destruct 0]).map
        (fun e => (e.1.length, e.2.segments.attached,
          decide (TransitionSystem.Met (Fits fun i => i + 1) e.1)))
      = some (3, [(1, 0)], true) := by decide +kernel
  obtain ⟨tr, w, hr, heq⟩ := TransitionSystem.Run.exists_of_trace
    (S := shmSystem fun i => i + 1) (fun _ _ _ h => h) leftover_empty htrace
  simp only [Prod.mk.injEq] at heq
  obtain ⟨hlen, hattached, hmet⟩ := heq
  have hftok : Function.Injective fun i : ℕ => (i : ℤ) + 1 := fun i j h => by
    simpa using h
  exact ⟨tr, w, hr, hlen, hattached, (runAgrees_iff hftok hr).mpr (of_decide_eq_true hmet)⟩

/-- A key file, and a segment with its key that nobody is attached to. -/
def ShmWorld.crashed : ShmWorld where
  files := ⟨fun path => if path = "ctl" then some 0 else none, 1⟩
  segments := ⟨fun key => if key = 1 then some 0 else none, 1, []⟩
  objects _ := none

theorem ShmWorld.leftover_crashed : crashed.Leftover where
  files := by
    refine ⟨fun path path' i h h' => ?_, fun path i h => ?_⟩
    · exact (Option.ite_none_right_eq_some.mp h).1.trans
        (Option.ite_none_right_eq_some.mp h').1.symm
    · cases (Option.ite_none_right_eq_some.mp h).2
      exact Nat.zero_lt_one
  segments := by
    refine ⟨fun key key' seg h h' => ?_, fun key seg h => ?_⟩
    · exact (Option.ite_none_right_eq_some.mp h).1.trans
        (Option.ite_none_right_eq_some.mp h').1.symm
    · cases (Option.ite_none_right_eq_some.mp h).2
      exact Nat.zero_lt_one
  attached := rfl
  objects _ := rfl

/-- **A process has crashed**, and left its key file and its segment. The first
one that is constructed with the file counts nobody, and the second one is
attached to another segment. -/
theorem ShmWorld.not_agrees_crashed : ∃ (tr : _) (w : ShmWorld),
    (shmSystem fun i => i + 1).Run tr w
    ∧ tr.map Prod.snd = [.construct 1 (.of "ctl"), .construct 0 (.of "ctl")]
    ∧ w.segments.attached = [(1, 2), (0, 1)]
    ∧ (∃ e ∈ tr, e.1.segments.nattch 1 = 1 ∧ (e.1.numOfAttach (fun i => i + 1) "ctl").2 = 0)
    ∧ ¬ w.Agrees fun i => i + 1 := by
  have htrace : (TransitionSystem.trace (next fun i => i + 1) [] crashed
      [.construct 0 (.of "ctl"), .construct 1 (.of "ctl")]).map
        (fun e => (e.1.map Prod.snd, e.2.segments.attached,
          (e.2.objects 0).map Shm.keyFile, (e.2.objects 1).map Shm.keyFile,
          decide (∃ a ∈ e.1, a.1.segments.nattch 1 = 1
            ∧ (a.1.numOfAttach (fun i => i + 1) "ctl").2 = 0)))
      = some ([.construct 1 (.of "ctl"), .construct 0 (.of "ctl")], [(1, 2), (0, 1)],
        some "ctl", some "ctl", true) := by decide +kernel
  obtain ⟨tr, w, hr, heq⟩ := TransitionSystem.Run.exists_of_trace
    (S := shmSystem fun i => i + 1) (fun _ _ _ h => h) leftover_crashed htrace
  simp only [Prod.mk.injEq] at heq
  obtain ⟨hlabels, hattached, hfirst, hsecond, hcount⟩ := heq
  obtain ⟨x, hx, hfile⟩ := Option.map_eq_some_iff.mp hfirst
  obtain ⟨x', hx', hfile'⟩ := Option.map_eq_some_iff.mp hsecond
  refine ⟨tr, w, hr, hlabels, hattached, of_decide_eq_true hcount, fun hagrees => ?_⟩
  have hatt : w.Attached 0 x 1 := ⟨hx, by rw [hattached]; decide⟩
  have hatt' : w.Attached 1 x' 2 := ⟨hx', by rw [hattached]; decide⟩
  exact absurd (hagrees.same _ _ _ _ _ _ hatt hatt' (hfile.trans hfile'.symm)) (by decide)

end Runs
