import CoinData.Runs
import Mathlib.Algebra.Group.Nat.Defs
import Mathlib.Data.Int.Notation
import Mathlib.Logic.Function.Basic

/-!
# Shared pointers

A `ShmSharedPtr` is three pointers, to an object, to a counter of the
handles which share it, and to a mutex which every operation on one of them
locks. The object, the counter and the mutex are destroyed with the last
handle. The counter is an `int`, and wraps around.

A handle is kept outside the managed objects, or in one of them; then the
destructor of the object destroys it, which may destroy further objects.
Reading what has been deallocated, locking a mutex twice, unlocking it twice
and destroying it while it is locked are faults.
-/

/-- `ShmSharedPtr`: `raw_ptr_`, `used_counter_` and `mutex_`. -/
structure ShmSharedPtr where
  rawPtr : Option ℕ := none
  usedCounter : Option ℕ := none
  mutex : Option ℕ := none
deriving DecidableEq, Repr

/-- Where a handle is: outside the managed objects, or in one of them. -/
inductive Place where
  | handle (h : ℕ)
  | field (obj k : ℕ)
deriving DecidableEq, Repr

/-- The object which a handle is kept in. -/
def Place.container : Place → Option ℕ
  | .handle _ => none
  | .field obj _ => some obj

/-- What can go wrong. -/
inductive PtrFault where
  /-- What is accessed does not exist, or does not exist any more. -/
  | freed
  /-- A mutex is locked by its holder. -/
  | deadlock
  /-- A mutex without a holder is unlocked. -/
  | unheld
  /-- A mutex is destroyed while it has a holder. -/
  | busy
  | endless
deriving DecidableEq, Repr

/-- What happens to the object, the counter and the mutex of a number. -/
inductive PtrEvent where
  | locked (i : ℕ)
  | unlocked (i : ℕ)
  | objectFreed (i : ℕ)
  | counterFreed (i : ℕ)
  | mutexFreed (i : ℕ)
deriving DecidableEq, Repr

/-- **The handles, and what they point to.** An object is as many handles
stored in it; a mutex is whether it is held. What is allocated gets the next
number, and what has happened to it is kept, latest first. -/
structure PtrMemory where
  handles : Place → Option ShmSharedPtr
  objects : ℕ → Option ℕ
  counters : ℕ → Option ℤ
  mutexes : ℕ → Option Bool
  next : ℕ
  events : List PtrEvent

/-- The operations. -/
inductive PtrOp where
  /-- `makeShmShared`, of an object with `width` handles in it. -/
  | makeShmShared (h width : ℕ)
  /-- The default constructor. -/
  | construct (h : ℕ)
  | copyConstruct (h : ℕ) (rhs : Place)
  | moveConstruct (h : ℕ) (rhs : Place)
  | copyAssign (lhs rhs : Place)
  | moveAssign (lhs rhs : Place)
  | reset (p : Place)
  | destroy (h : ℕ)
deriving DecidableEq, Repr

namespace PtrMemory

/-- What an `int` is, which wraps around. -/
def wrap (v : ℤ) : ℤ := Int.bmod v (2 ^ 32)

/-- Nothing yet. -/
def empty : PtrMemory :=
  ⟨fun _ => none, fun _ => none, fun _ => none, fun _ => none, 0, []⟩

/-- Follow a pointer. -/
def deref : Option ℕ → Except PtrFault ℕ
  | some i => .ok i
  | none => .error .freed

/-- Read a handle. -/
def read (m : PtrMemory) (p : Place) : Except PtrFault ShmSharedPtr :=
  match m.handles p with
  | some c => .ok c
  | none => .error .freed

/-- Store a handle. -/
def write (m : PtrMemory) (p : Place) (c : ShmSharedPtr) : PtrMemory :=
  { m with handles := Function.update m.handles p (some c) }

/-- Change a handle which is there. -/
def modify (m : PtrMemory) (p : Place) (f : ShmSharedPtr → ShmSharedPtr) :
    Except PtrFault PtrMemory := do
  let c ← m.read p
  return m.write p (f c)

/-- A mutex is taken. -/
def take (m : PtrMemory) (i : ℕ) : PtrMemory :=
  { m with
    mutexes := Function.update m.mutexes i (some true)
    events := .locked i :: m.events }

/-- A mutex is given back. -/
def release (m : PtrMemory) (i : ℕ) : PtrMemory :=
  { m with
    mutexes := Function.update m.mutexes i (some false)
    events := .unlocked i :: m.events }

/-- `timedlock`, which succeeds. -/
def timedlock (m : PtrMemory) (i : ℕ) : Except PtrFault PtrMemory :=
  match m.mutexes i with
  | none => .error .freed
  | some true => .error .deadlock
  | some false => .ok (m.take i)

/-- `unlock`. -/
def unlock (m : PtrMemory) (i : ℕ) : Except PtrFault PtrMemory :=
  match m.mutexes i with
  | none => .error .freed
  | some false => .error .unheld
  | some true => .ok (m.release i)

/-- `lock_`. -/
def lock (m : PtrMemory) (p : Place) : Except PtrFault PtrMemory := do
  let c ← m.read p
  match c.mutex with
  | none => return m
  | some i => m.timedlock i

/-- `if(mutex_) mutex_->unlock()`. -/
def unlockMutex (m : PtrMemory) (p : Place) : Except PtrFault PtrMemory := do
  let c ← m.read p
  match c.mutex with
  | none => return m
  | some i => m.unlock i

/-- `fetch_add`, and `fetch_sub` by a negative number. -/
def fetchAdd (m : PtrMemory) (i : ℕ) (d : ℤ) : Except PtrFault PtrMemory :=
  match m.counters i with
  | none => .error .freed
  | some v => .ok { m with counters := Function.update m.counters i (some (wrap (v + d))) }

/-- `load`. -/
def load (m : PtrMemory) (i : ℕ) : Except PtrFault ℤ :=
  match m.counters i with
  | none => .error .freed
  | some v => .ok v

/-- `increace_`. -/
def increace (m : PtrMemory) (usedCounter : Option ℕ) : Except PtrFault PtrMemory :=
  match usedCounter with
  | none => .ok m
  | some i => m.fetchAdd i 1

/-- Deallocate an object. The handles in it are gone with it. -/
def freeObject (m : PtrMemory) (i : ℕ) : Except PtrFault PtrMemory :=
  match m.objects i with
  | none => .error .freed
  | some _ => .ok { m with
      handles := fun p => if p.container = some i then none else m.handles p
      objects := Function.update m.objects i none
      events := .objectFreed i :: m.events }

/-- Destroy and deallocate a counter. -/
def freeCounter (m : PtrMemory) (i : ℕ) : Except PtrFault PtrMemory :=
  match m.counters i with
  | none => .error .freed
  | some _ => .ok { m with
      counters := Function.update m.counters i none
      events := .counterFreed i :: m.events }

/-- Destroy and deallocate a mutex. -/
def freeMutex (m : PtrMemory) (i : ℕ) : Except PtrFault PtrMemory :=
  match m.mutexes i with
  | none => .error .freed
  | some true => .error .busy
  | some false => .ok { m with
      mutexes := Function.update m.mutexes i none
      events := .mutexFreed i :: m.events }

/-- Give up what a handle points to: lock, `decreace_`, and unlock, if the
mutex is still there. -/
def giveUp (decreace : PtrMemory → Place → Except PtrFault PtrMemory) (m : PtrMemory)
    (p : Place) : Except PtrFault PtrMemory := do
  let m ← m.lock p
  let m ← decreace m p
  m.unlockMutex p

/-- The lines of the destructor, and of the assignments on their left
side. -/
def giveUpRaw (decreace : PtrMemory → Place → Except PtrFault PtrMemory) (m : PtrMemory)
    (p : Place) : Except PtrFault PtrMemory := do
  let c ← m.read p
  if c.rawPtr = none then return m else m.giveUp decreace p

/-- The handles in an object are destroyed, the last one first. -/
def destroyFields (decreace : PtrMemory → Place → Except PtrFault PtrMemory) (obj : ℕ) :
    ℕ → PtrMemory → Except PtrFault PtrMemory
  | 0, m => .ok m
  | k + 1, m => do
    let m ← m.giveUpRaw decreace (.field obj k)
    destroyFields decreace obj k m

/-- The destructor of an object. -/
def destroyObject (decreace : PtrMemory → Place → Except PtrFault PtrMemory) (m : PtrMemory)
    (obj : ℕ) : Except PtrFault PtrMemory :=
  match m.objects obj with
  | none => .error .freed
  | some width => destroyFields decreace obj width m

/-- `decreace_`. The fuel bounds how deep objects are destroyed in objects. -/
def decreace : ℕ → PtrMemory → Place → Except PtrFault PtrMemory
  | 0, _, _ => .error .endless
  | fuel + 1, m, p => do
    let c ← m.read p
    match c.usedCounter with
    | none => return m
    | some _ =>
      let m ← m.fetchAdd (← deref c.usedCounter) (-1)
      let count ← m.load (← deref c.usedCounter)
      if count = 0 then
        let m ← m.destroyObject (decreace fuel) (← deref c.rawPtr)
        let c ← m.read p
        let m ← m.freeObject (← deref c.rawPtr)
        let m ← m.freeCounter (← deref c.usedCounter)
        let m ← m.unlock (← deref c.mutex)
        let m ← m.freeMutex (← deref c.mutex)
        let m ← m.modify p fun c => { c with mutex := none }
        m.modify p fun c => { c with usedCounter := none, rawPtr := none }
      else
        m.modify p fun c => { c with usedCounter := none, rawPtr := none }

/-- An object is destroyed once, so this much fuel does. -/
def fuel (m : PtrMemory) : ℕ := m.next + 1

/-- `lock_(&rhs)`, take over its three pointers, and `increace_`. -/
def share (m : PtrMemory) (lhs rhs : Place) : Except PtrFault PtrMemory := do
  let m ← m.lock rhs
  let c ← m.read rhs
  let m ← m.modify lhs fun _ => c
  m.increace c.usedCounter

/-- `rhs.mutex_->unlock()`. -/
def unlockRef (m : PtrMemory) (p : Place) : Except PtrFault PtrMemory := do
  let c ← m.read p
  m.unlock (← deref c.mutex)

/-- The copy constructor. -/
def copyConstruct (m : PtrMemory) (lhs rhs : Place) : Except PtrFault PtrMemory := do
  let m := m.write lhs {}
  let r ← m.read rhs
  if r.rawPtr = none ∨ lhs = rhs then return m
  let l ← m.read lhs
  let m ← if l.mutex ≠ none then m.giveUp (decreace m.fuel) lhs else pure m
  let m ← m.share lhs rhs
  m.unlockMutex rhs

/-- The copy assignment. -/
def copyAssign (m : PtrMemory) (lhs rhs : Place) : Except PtrFault PtrMemory := do
  let r ← m.read rhs
  if r.rawPtr = none ∨ lhs = rhs then return m
  let m ← m.giveUpRaw (decreace m.fuel) lhs
  let m ← m.share lhs rhs
  m.unlockRef rhs

/-- The move assignment. -/
def moveAssign (m : PtrMemory) (lhs rhs : Place) : Except PtrFault PtrMemory := do
  let r ← m.read rhs
  if r.rawPtr = none ∨ lhs = rhs then return m
  let m ← m.giveUpRaw (decreace m.fuel) lhs
  let m ← m.share lhs rhs
  let m ← decreace m.fuel m rhs
  let m ← m.modify rhs fun _ => {}
  m.unlockRef lhs

/-- The move constructor, whose lines are those of the assignment. -/
def moveConstruct (m : PtrMemory) (lhs rhs : Place) : Except PtrFault PtrMemory :=
  (m.write lhs {}).moveAssign lhs rhs

/-- `reset`. -/
def reset (m : PtrMemory) (p : Place) : Except PtrFault PtrMemory := do
  let c ← m.read p
  if c.rawPtr = none then return m
  if c.mutex ≠ none then
    let m ← m.lock p
    let m ← decreace m.fuel m p
    let m ← m.modify p fun c => { c with rawPtr := none, usedCounter := none }
    let m ← m.unlockMutex p
    m.modify p fun c => { c with mutex := none }
  else
    m.modify p fun c => { c with mutex := none }

/-- The destructor of a handle outside, whose place is free then. -/
def destroy (m : PtrMemory) (h : ℕ) : Except PtrFault PtrMemory := do
  let m ← m.giveUpRaw (decreace m.fuel) (.handle h)
  return { m with handles := Function.update m.handles (.handle h) none }

/-- `makeShmShared`: an object with null handles in it, a mutex, and a
counter, which `increace_` makes one. -/
def makeShmShared (m : PtrMemory) (h width : ℕ) : Except PtrFault PtrMemory :=
  let i := m.next
  increace { m with
    handles := fun
      | .field obj k => if obj = i ∧ k < width then some {} else m.handles (.field obj k)
      | .handle h' => if h' = h then some ⟨some i, some i, some i⟩ else m.handles (.handle h')
    objects := Function.update m.objects i (some width)
    counters := Function.update m.counters i (some 0)
    mutexes := Function.update m.mutexes i (some false)
    next := i + 1 } (some i)

/-- **An operation.** -/
def run (m : PtrMemory) : PtrOp → Except PtrFault PtrMemory
  | .makeShmShared h width => m.makeShmShared h width
  | .construct h => .ok (m.write (.handle h) {})
  | .copyConstruct h rhs => m.copyConstruct (.handle h) rhs
  | .moveConstruct h rhs => m.moveConstruct (.handle h) rhs
  | .copyAssign lhs rhs => m.copyAssign lhs rhs
  | .moveAssign lhs rhs => m.moveAssign lhs rhs
  | .reset p => m.reset p
  | .destroy h => m.destroy h

/-- What a handle points to. -/
def refersTo (m : PtrMemory) (p : Place) : Option ℕ := (m.handles p).bind (·.rawPtr)

/-- What a handle points to, if it is there. -/
def view (m : PtrMemory) (p : Place) : Option (Option ℕ) := (m.handles p).map (·.rawPtr)

end PtrMemory
