import Mathlib.Logic.Function.Basic
import Mathlib.Tactic.Common

/-!
# Mutexes shared by processes

A mutex which is *error-checking* (who does not own it cannot unlock it, and
who owns it cannot lock it again) and *robust* (when its owner dies, the
next one to lock it is told so, and owns it in an inconsistent state, which
it has to repair before it unlocks it, or else nobody can lock it again).

The second part is about a mutex beside which a word names its owner. The
owner writes the word after it has locked the mutex, and clears it before it
unlocks it; so the word names the owner, but not at once, and no longer than
it can be relied on (`NamedLock.Consistent`).
-/

/-- **A robust, error-checking mutex** of processes `ι`. -/
inductive RobustMutex (ι : Type*) where
  | free
  | owned (owner : ι) (consistent : Bool)
  | notRecoverable
deriving DecidableEq, Repr

/-- What locking with a timeout returns. -/
inductive LockResult where
  | ok
  | etimedout
  | eownerdead
  | edeadlk
  | enotrecoverable
deriving DecidableEq, Repr

namespace RobustMutex

variable {ι : Type*} [DecidableEq ι]

/-- Lock with a timeout, of a call that returns: while a process which is
alive owns the mutex, it returns because the time is up. -/
def timedlock (alive : ι → Bool) (p : ι) : RobustMutex ι → LockResult × RobustMutex ι
  | .free => (.ok, .owned p true)
  | .owned q c =>
    if q = p then (.edeadlk, .owned q c)
    else if alive q then (.etimedout, .owned q c)
    else (.eownerdead, .owned p false)
  | .notRecoverable => (.enotrecoverable, .notRecoverable)

/-- Unlock: whether that is permitted. -/
def unlock (p : ι) : RobustMutex ι → Bool × RobustMutex ι
  | .owned q c =>
    if q = p then (true, if c then .free else .notRecoverable) else (false, .owned q c)
  | m => (false, m)

/-- Say that what the mutex protects is consistent again. -/
def makeConsistent (p : ι) : RobustMutex ι → RobustMutex ι
  | .owned q c => if q = p then .owned q true else .owned q c
  | m => m

omit [DecidableEq ι] in
/-- Who owns the mutex. -/
def owner : RobustMutex ι → Option ι
  | .owned q _ => some q
  | _ => none

variable {alive : ι → Bool} {p q : ι} {c : Bool}

theorem timedlock_alive (hne : q ≠ p) (hq : alive q = true) :
    timedlock alive p (.owned q c) = (.etimedout, .owned q c) := by
  simp [timedlock, hne, hq]

theorem timedlock_dead (hne : q ≠ p) (hq : alive q = false) :
    timedlock alive p (.owned q c) = (.eownerdead, .owned p false) := by
  simp [timedlock, hne, hq]

theorem unlock_self : unlock p (.owned p true) = (true, .free) := by
  simp [unlock]

theorem unlock_other (hne : q ≠ p) : unlock p (.owned q c) = (false, .owned q c) :=
  if_neg hne

theorem makeConsistent_true : makeConsistent p (.owned q true) = .owned q true :=
  ite_self _

theorem makeConsistent_other (hne : q ≠ p) : makeConsistent p (.owned q c) = .owned q c :=
  if_neg hne

omit [DecidableEq ι] in
/-- A mutex which is never left inconsistent is consistent with its owner. -/
theorem owned_of_owner {m : RobustMutex ι} (hclean : m = .free ∨ ∃ q, m = .owned q true)
    (hp : m.owner = some p) : m = .owned p true := by
  rcases hclean with hfree | ⟨q, hq⟩
  · rw [hfree] at hp
    cases hp
  · rw [hq] at hp
    cases hp
    exact hq

end RobustMutex

/-! ## A word which names the owner -/

/-- Where a process is with the mutex. -/
inductive LockPhase where
  | outside
  /-- It owns the mutex, and has not written the word yet. -/
  | acquired
  /-- It owns the mutex, and the word names it. -/
  | named
  /-- It owns the mutex, and has cleared the word. -/
  | cleared
deriving DecidableEq, Repr

/-- **A mutex and a word** which is to name its owner. -/
structure NamedLock (ι : Type*) where
  owner : Option ι
  name : Option ι
  phase : ι → LockPhase

namespace NamedLock

variable {ι : Type*} [DecidableEq ι] {s s' : NamedLock ι}

/-- **The protocol**: lock, write the word, clear it, unlock. -/
inductive Step (s : NamedLock ι) : NamedLock ι → Prop
  | acquire (p : ι) : s.owner = none → s.phase p = .outside →
      Step s ⟨some p, s.name, Function.update s.phase p .acquired⟩
  | write (p : ι) : s.phase p = .acquired →
      Step s ⟨s.owner, some p, Function.update s.phase p .named⟩
  | clear (p : ι) : s.phase p = .named →
      Step s ⟨s.owner, none, Function.update s.phase p .cleared⟩
  | release (p : ι) : s.phase p = .cleared →
      Step s ⟨none, s.name, Function.update s.phase p .outside⟩

/-- **The invariant of the protocol**: who is inside owns the mutex, and the
word names the owner from its writing to its clearing. -/
structure Consistent (s : NamedLock ι) : Prop where
  inside : ∀ p, s.phase p ≠ .outside ↔ s.owner = some p
  name : ∀ p, s.name = some p ↔ s.phase p = .named

omit [DecidableEq ι] in
/-- Two processes are not inside together. -/
theorem Consistent.eq (h : s.Consistent) {p q : ι} (hp : s.phase p ≠ .outside)
    (hq : s.phase q ≠ .outside) : p = q :=
  Option.some.inj (((h.inside p).mp hp).symm.trans ((h.inside q).mp hq))

/-- Where the phase of a process stays, the protocol takes no step. -/
theorem Consistent.stay (h : s.Consistent) {p : ι} {f : LockPhase} (hf : f = s.phase p) :
    (⟨s.owner, s.name, Function.update s.phase p f⟩ : NamedLock ι).Consistent := by
  rw [hf, Function.update_eq_self]
  exact h

/-- Steps inside the mutex keep its owner. -/
theorem Consistent.inside_update (h : s.Consistent) {p : ι} {f : LockPhase}
    (hp : s.phase p ≠ .outside) (hf : f ≠ .outside) (q : ι) :
    Function.update s.phase p f q ≠ .outside ↔ s.owner = some q := by
  by_cases hq : q = p
  · rw [hq, Function.update_self]
    exact iff_of_true hf ((h.inside p).mp hp)
  · rw [Function.update_of_ne hq]
    exact h.inside q

/-- **A step keeps the invariant.** -/
theorem Consistent.step (h : s.Consistent) (hs : s.Step s') : s'.Consistent := by
  cases hs with
  | acquire p hfree hp =>
    have hout : ∀ q, s.phase q = .outside := by
      intro q
      by_contra hq
      have howner := (h.inside q).mp hq
      rw [hfree] at howner
      cases howner
    refine ⟨fun q => ?_, fun q => ?_⟩ <;> dsimp only
    · by_cases hq : q = p
      · rw [hq, Function.update_self]
        exact iff_of_true nofun rfl
      · rw [Function.update_of_ne hq]
        exact iff_of_false (not_not.mpr (hout q)) fun heq => hq (Option.some.inj heq).symm
    · have hnone : s.name ≠ some q := by
        intro hq
        have hphase := (h.name q).mp hq
        rw [hout q] at hphase
        cases hphase
      refine iff_of_false hnone ?_
      by_cases hq : q = p
      · rw [hq, Function.update_self]
        exact nofun
      · rw [Function.update_of_ne hq, hout q]
        exact nofun
  | write p hp =>
    have hin : s.phase p ≠ .outside := by
      rw [hp]
      exact nofun
    refine ⟨h.inside_update hin nofun, fun q => ?_⟩
    dsimp only
    by_cases hq : q = p
    · rw [hq, Function.update_self]
      exact iff_of_true rfl rfl
    · rw [Function.update_of_ne hq]
      refine iff_of_false (fun heq => hq (Option.some.inj heq).symm) fun hphase => hq ?_
      exact h.eq (by rw [hphase]; exact nofun) hin
  | clear p hp =>
    have hin : s.phase p ≠ .outside := by
      rw [hp]
      exact nofun
    refine ⟨h.inside_update hin nofun, fun q => iff_of_false nofun ?_⟩
    dsimp only
    by_cases hq : q = p
    · rw [hq, Function.update_self]
      exact nofun
    · rw [Function.update_of_ne hq]
      exact fun hphase => hq (h.eq (by rw [hphase]; exact nofun) hin)
  | release p hp =>
    have hin : s.phase p ≠ .outside := by
      rw [hp]
      exact nofun
    have hout : ∀ q, q ≠ p → s.phase q = .outside := by
      intro q hq
      by_contra hphase
      exact hq (h.eq hphase hin)
    have hoff : ∀ q, Function.update s.phase p .outside q = .outside := by
      intro q
      by_cases hq : q = p
      · rw [hq, Function.update_self]
      · rw [Function.update_of_ne hq, hout q hq]
    refine ⟨fun q => iff_of_false (not_not.mpr (hoff q)) nofun, fun q => ?_⟩
    dsimp only
    rw [hoff q]
    refine iff_of_false (fun heq => ?_) nofun
    have hphase := (h.name q).mp heq
    by_cases hq : q = p
    · rw [hq, hp] at hphase
      cases hphase
    · rw [hout q hq] at hphase
      cases hphase

end NamedLock
