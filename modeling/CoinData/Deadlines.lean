import Mathlib.Tactic.Common
import Mathlib.Algebra.Order.Ring.Int

/-!
# When a lock times out

A time is given as seconds and nanoseconds, of which there are less than a
second's, or as a number of nanoseconds. A lock that is to wait for so long
is given the time until when; `timedlock` adds what it is to wait to the
clock.

Its argument is in milliseconds. It is multiplied by a thousand, and added
to a number of nanoseconds: so `timedlock` waits a thousandth of the time.
-/

/-! ## Times -/

/-- `timespec`. -/
structure Timespec where
  tvSec : ℤ
  tvNsec : ℤ
deriving DecidableEq, Repr

namespace Timespec

/-- The nanoseconds of a time. -/
def nanos (t : Timespec) : ℤ := t.tvSec * 10 ^ 9 + t.tvNsec

/-- A time has less than a second's nanoseconds. -/
structure Normal (t : Timespec) : Prop where
  nonneg : 0 ≤ t.tvNsec
  lt : t.tvNsec < 10 ^ 9

/-- The time after so many nanoseconds. -/
def ofNanos (n : ℤ) : Timespec := ⟨n / 10 ^ 9, n % 10 ^ 9⟩

theorem nanos_ofNanos (n : ℤ) : (ofNanos n).nanos = n := by
  unfold nanos ofNanos
  exact Int.ediv_mul_add_emod n (10 ^ 9)

theorem normal_ofNanos (n : ℤ) : (ofNanos n).Normal where
  nonneg := Int.emod_nonneg n (by decide)
  lt := Int.emod_lt_of_pos n (by decide)

/-- **A time is given by its nanoseconds.** -/
theorem Normal.ofNanos_nanos {t : Timespec} (h : t.Normal) : ofNanos t.nanos = t := by
  obtain ⟨hnonneg, hlt⟩ := h
  unfold ofNanos nanos
  obtain ⟨sec, nsec⟩ := t
  dsimp only at hnonneg hlt ⊢
  rw [Int.add_comm, Int.add_mul_ediv_right nsec sec (by decide), Int.add_mul_emod_self_right,
    Int.ediv_eq_zero_of_lt hnonneg hlt, Int.emod_eq_of_lt hnonneg hlt, Int.zero_add]

end Timespec

/-! ## Machine arithmetic -/

/-- A signed number of `w` bits, if there is one. -/
def signed (w : ℕ) (x : ℤ) : Option ℤ :=
  if -2 ^ (w - 1) ≤ x ∧ x < 2 ^ (w - 1) then some x else none

theorem signed_eq_some {w : ℕ} {x y : ℤ} :
    signed w x = some y ↔ x = y ∧ -2 ^ (w - 1) ≤ x ∧ x < 2 ^ (w - 1) := by
  unfold signed
  rw [Option.ite_none_right_eq_some, Option.some_inj]
  exact and_comm

theorem signed_of_range {w : ℕ} {x : ℤ} (h : -2 ^ (w - 1) ≤ x) (h' : x < 2 ^ (w - 1)) :
    signed w x = some x := if_pos ⟨h, h'⟩

/-- A `size_t` as an `int`: the last 32 bits. -/
def intOfSize (t : ℕ) : ℤ := Int.bmod t (2 ^ 32)

theorem intOfSize_le (t : ℕ) : intOfSize t ≤ t := by
  unfold intOfSize
  rw [Int.bmod_def]
  split <;> omega

theorem neg_le_intOfSize (t : ℕ) : -2 ^ 31 ≤ intOfSize t := by
  unfold intOfSize
  rw [Int.bmod_def]
  split <;> omega

/-! ## The deadline -/

/-- **What `timedlock` gives to `pthread_mutex_timedlock`**, when the clock is
read as given: multiplications and additions of `long`, but for the one of
`ms`, which is an `int`. There is no value if one overflows. -/
def timedlockDeadline (clock : Timespec) (ms : ℤ) : Option Timespec := do
  let sec ← signed 64 (clock.tvSec * 1000)
  let sec ← signed 64 (sec * 1000)
  let sec ← signed 64 (sec * 1000)
  let sum ← signed 64 (sec + clock.tvNsec)
  let delay ← signed 32 (ms * 1000)
  let sum ← signed 64 (sum + delay)
  let now := sum % 2 ^ 64
  some ⟨now / 1000 / 1000 / 1000, now % (1000 * 1000 * 1000)⟩

/-- A lock which is waited for until a deadline may time out when the clock
reads so many nanoseconds. -/
def Timespec.Expired (deadline : Timespec) (now : ℤ) : Prop := deadline.nanos ≤ now

/-- **The time limit is what was asked for**: the deadline is `t`
milliseconds after the reading of the clock, and no lock times out before.
The callers have their limits as `size_t`. -/
def WaitsFor (clock : Timespec) (t : ℕ) : Prop :=
  ∃ deadline, timedlockDeadline clock (intOfSize t) = some deadline ∧ deadline.Normal
    ∧ deadline.nanos = clock.nanos + t * 10 ^ 6
    ∧ ∀ now, deadline.Expired now → clock.nanos + t * 10 ^ 6 ≤ now

/-- **The deadline is so many microseconds later**, where milliseconds were
meant. -/
theorem timedlockDeadline_eq_some {clock deadline : Timespec} {ms : ℤ}
    (h : timedlockDeadline clock ms = some deadline) :
    deadline = .ofNanos ((clock.nanos + ms * 1000) % 2 ^ 64) := by
  unfold timedlockDeadline at h
  simp only [Option.bind_eq_bind, Option.bind_eq_some_iff, signed_eq_some] at h
  obtain ⟨_, ⟨rfl, _⟩, _, ⟨rfl, _⟩, _, ⟨rfl, _⟩, _, ⟨rfl, _⟩, _, ⟨rfl, _⟩, _, ⟨rfl, _⟩, h⟩ := h
  have hnanos : clock.tvSec * 1000 * 1000 * 1000 + clock.tvNsec + ms * 1000
      = clock.nanos + ms * 1000 := by
    unfold Timespec.nanos
    omega
  rw [hnanos] at h
  cases h
  unfold Timespec.ofNanos
  congr 1
  omega

/-- **A limit which can be represented** has a deadline. -/
theorem timedlockDeadline_of_range {clock : Timespec} {ms : ℤ} (hclock : clock.Normal)
    (hsec : 0 ≤ clock.tvSec) (hms : 0 ≤ ms) (hdelay : ms * 1000 < 2 ^ 31)
    (hlt : clock.nanos + ms * 1000 < 2 ^ 63) :
    timedlockDeadline clock ms = some (.ofNanos (clock.nanos + ms * 1000)) := by
  have hnonneg := hclock.nonneg
  have hsome : (timedlockDeadline clock ms).isSome := by
    unfold Timespec.nanos at hlt
    unfold timedlockDeadline
    rw [signed_of_range (by omega) (by omega), Option.bind_eq_bind, Option.bind_some,
      signed_of_range (by omega) (by omega), Option.bind_some,
      signed_of_range (by omega) (by omega), Option.bind_some,
      signed_of_range (by omega) (by omega), Option.bind_some,
      signed_of_range (by omega) (by omega), Option.bind_some,
      signed_of_range (by omega) (by omega), Option.bind_some]
    rfl
  obtain ⟨deadline, hd⟩ := Option.isSome_iff_exists.mp hsome
  have hmod : (clock.nanos + ms * 1000) % 2 ^ 64 = clock.nanos + ms * 1000 := by
    refine Int.emod_eq_of_lt ?_ (Int.lt_trans hlt (by decide))
    unfold Timespec.nanos
    omega
  rw [hd, timedlockDeadline_eq_some hd, hmod]

/-- A thousandth of the time is as long only if both are zero. A negative
argument may take the sum below zero, and then it is far too high. -/
theorem eq_zero_of_later {c i : ℤ} {t : ℕ} (hc : 0 ≤ c) (hlt : c + t * 10 ^ 6 < 2 ^ 63)
    (hle : i ≤ t) (hge : -2 ^ 31 ≤ i) (h : (c + i * 1000) % 2 ^ 64 = c + t * 10 ^ 6) : t = 0 := by
  rcases Int.lt_or_le (c + i * 1000) 0 with hneg | hnonneg
  · have hwrap : (c + i * 1000) % 2 ^ 64 = c + i * 1000 + 2 ^ 64 := by
      rw [← Int.add_emod_right]
      clear h hlt
      exact Int.emod_eq_of_lt (by omega) (by omega)
    rw [hwrap] at h
    clear hwrap
    omega
  · have hsame : (c + i * 1000) % 2 ^ 64 = c + i * 1000 := by
      clear h
      exact Int.emod_eq_of_lt hnonneg (by omega)
    rw [hsame] at h
    clear hsame
    omega

/-- **A limit of `t` milliseconds is kept exactly if it is zero**: it is for
no other, whatever the clock reads. -/
theorem waitsFor_iff {clock : Timespec} {t : ℕ} (hclock : clock.Normal) (hsec : 0 ≤ clock.tvSec)
    (hlt : clock.nanos + t * 10 ^ 6 < 2 ^ 63) : WaitsFor clock t ↔ t = 0 := by
  have hpos : 0 ≤ clock.nanos := by
    have hnonneg := hclock.nonneg
    unfold Timespec.nanos
    omega
  constructor
  · rintro ⟨deadline, hd, _, hnanos, _⟩
    rw [timedlockDeadline_eq_some hd, Timespec.nanos_ofNanos] at hnanos
    exact eq_zero_of_later hpos hlt (intOfSize_le t) (neg_le_intOfSize t) hnanos
  · rintro rfl
    have hd : timedlockDeadline clock (intOfSize 0) = some clock := by
      have hlt' : clock.nanos + 0 * 1000 < 2 ^ 63 := by omega
      have hd := timedlockDeadline_of_range hclock hsec (Int.le_refl 0) (by decide) hlt'
      rw [Int.zero_mul, Int.add_zero, hclock.ofNanos_nanos] at hd
      exact hd
    exact ⟨clock, hd, hclock, by omega, fun now hnow => by unfold Timespec.Expired at hnow; omega⟩

/-- A lock that is not to be waited for. -/
theorem waitsFor_zero : WaitsFor ⟨1700000000, 999950000⟩ 0 :=
  (waitsFor_iff ⟨by decide, by decide⟩ (by decide) (by decide)).mpr rfl

/-- **A lock that is to be waited for 100 milliseconds** may time out after
100 microseconds. -/
theorem not_waitsFor_hundred :
    timedlockDeadline ⟨1700000000, 999950000⟩ (intOfSize 100) = some ⟨1700000001, 50000⟩
      ∧ ¬ WaitsFor ⟨1700000000, 999950000⟩ 100 := by
  have hd : timedlockDeadline ⟨1700000000, 999950000⟩ (intOfSize 100)
      = some ⟨1700000001, 50000⟩ := by decide
  refine ⟨hd, ?_⟩
  rintro ⟨deadline, hd', _, hnanos, _⟩
  cases hd.symm.trans hd'
  exact absurd hnanos (by decide)
