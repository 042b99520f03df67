import Mathlib.Algebra.Order.Ring.Int
import Mathlib.Tactic.Common

/-!
# Signed date times

A `DateTime` is a magnitude in nanoseconds and a symbol, which is `1` or `-1`. It
stands for their product, `val`, so that zero is there twice.

The sum heeds the symbols, and stands for the sum. The difference and the two
comparisons read the magnitudes alone: they are right for what has the symbol `1`,
and wrong for nearly everything else. `laws_iff` says for which values all the
operators agree with what the values stand for.
-/

/-- **`DateTime`**, with `nsec_` and `symbol_`. -/
structure DateTime where
  nsec : UInt64
  symbol : ℤ
  deriving DecidableEq, Repr

namespace DateTime

/-! ## Constructors and setters -/

/-- `DateTime()`. -/
def default : DateTime := { nsec := 0, symbol := 1 }

/-- `DateTime(t)`. -/
def ofNsec (t : UInt64) : DateTime := { nsec := t, symbol := 1 }

/-- `set_date_time`. -/
def setDateTime (_ : DateTime) (timestamp : UInt64) : DateTime :=
  { nsec := timestamp, symbol := 1 }

/-- `set_date_time_sec`. -/
def setDateTimeSec (_ : DateTime) (timestamp : UInt64) : DateTime :=
  { nsec := timestamp * 1000 * 1000 * 1000, symbol := 1 }

/-- `set_date_time_msec`. -/
def setDateTimeMsec (_ : DateTime) (timestamp : UInt64) : DateTime :=
  { nsec := timestamp * 1000 * 1000, symbol := 1 }

/-- `set_date_time_usec`. -/
def setDateTimeUsec (_ : DateTime) (timestamp : UInt64) : DateTime :=
  { nsec := timestamp * 1000, symbol := 1 }

/-- `set_date_time_nsec`. -/
def setDateTimeNsec (_ : DateTime) (timestamp : UInt64) : DateTime :=
  { nsec := timestamp, symbol := 1 }

/-! ## Operators -/

/-- `operator -`. -/
protected def sub (x rhs : DateTime) : DateTime :=
  if rhs.nsec < x.nsec then { nsec := x.nsec - rhs.nsec, symbol := 1 }
  else { nsec := rhs.nsec - x.nsec, symbol := -1 }

/-- `operator +`. -/
protected def add (x rhs : DateTime) : DateTime :=
  if x.symbol ≠ rhs.symbol then
    if rhs.nsec < x.nsec then { nsec := x.nsec - rhs.nsec, symbol := x.symbol }
    else { nsec := rhs.nsec - x.nsec, symbol := rhs.symbol }
  else { nsec := x.nsec + rhs.nsec, symbol := x.symbol }

/-- `operator <`. -/
protected def lt (x rhs : DateTime) : Bool := x.nsec < rhs.nsec

/-- `operator >`. -/
protected def gt (x rhs : DateTime) : Bool := rhs.nsec < x.nsec

/-- `operator ==`. -/
protected def eq (x rhs : DateTime) : Bool := x.nsec = rhs.nsec ∧ x.symbol = rhs.symbol

instance : Sub DateTime := ⟨DateTime.sub⟩

instance : Add DateTime := ⟨DateTime.add⟩

/-- **What can be obtained** from constructors, setters and operators. -/
inductive Obtained : DateTime → Prop
  | default : Obtained default
  | ofNsec (t : UInt64) : Obtained (ofNsec t)
  | setDateTime {x : DateTime} (t : UInt64) : Obtained x → Obtained (x.setDateTime t)
  | setDateTimeSec {x : DateTime} (t : UInt64) : Obtained x → Obtained (x.setDateTimeSec t)
  | setDateTimeMsec {x : DateTime} (t : UInt64) : Obtained x → Obtained (x.setDateTimeMsec t)
  | setDateTimeUsec {x : DateTime} (t : UInt64) : Obtained x → Obtained (x.setDateTimeUsec t)
  | setDateTimeNsec {x : DateTime} (t : UInt64) : Obtained x → Obtained (x.setDateTimeNsec t)
  | add {x y : DateTime} : Obtained x → Obtained y → Obtained (x + y)
  | sub {x y : DateTime} : Obtained x → Obtained y → Obtained (x - y)

variable {x y : DateTime}

/-- **The symbol is `1` or `-1`** in whatever is obtained. -/
theorem Obtained.symbol_eq (h : Obtained x) : x.symbol = 1 ∨ x.symbol = -1 := by
  induction h with
  | default | ofNsec | setDateTime | setDateTimeSec | setDateTimeMsec | setDateTimeUsec
  | setDateTimeNsec => exact Or.inl rfl
  | @add x y _ _ ihx ihy =>
    change (DateTime.add x y).symbol = 1 ∨ (DateTime.add x y).symbol = -1
    unfold DateTime.add
    split
    · split
      · exact ihx
      · exact ihy
    · exact ihx
  | @sub x y _ _ _ _ =>
    change (DateTime.sub x y).symbol = 1 ∨ (DateTime.sub x y).symbol = -1
    unfold DateTime.sub
    split
    · exact Or.inl rfl
    · exact Or.inr rfl

/-! ## What the operators compute -/

/-- **What a value stands for.** -/
def val (x : DateTime) : ℤ := x.symbol * x.nsec.toNat

/-- **The difference** is that of the magnitudes. -/
theorem val_sub (x y : DateTime) : val (x - y) = x.nsec.toNat - y.nsec.toNat := by
  change val (DateTime.sub x y) = _
  unfold DateTime.sub
  split
  case isTrue h =>
    have hsub := UInt64.toNat_sub_of_le _ _ (UInt64.le_of_lt h)
    have hlt := UInt64.lt_iff_toNat_lt.mp h
    simp only [val, hsub]
    omega
  case isFalse h =>
    have hle := UInt64.not_lt.mp h
    have hsub := UInt64.toNat_sub_of_le _ _ hle
    have hle' := UInt64.le_iff_toNat_le.mp hle
    simp only [val, hsub]
    omega

/-- **The sum** is that of what the values stand for. -/
theorem val_add (hx : x.symbol = 1 ∨ x.symbol = -1) (hy : y.symbol = 1 ∨ y.symbol = -1)
    (hxn : x.nsec.toNat < 2 ^ 63) (hyn : y.nsec.toNat < 2 ^ 63) :
    val (x + y) = val x + val y := by
  change val (DateTime.add x y) = _
  unfold DateTime.add
  split
  case isTrue hne =>
    have hopp : x.symbol = -y.symbol := by omega
    split
    case isTrue h =>
      have hsub := UInt64.toNat_sub_of_le _ _ (UInt64.le_of_lt h)
      have hlt := UInt64.lt_iff_toNat_lt.mp h
      simp only [val, hsub, hopp]
      rcases hy with hy | hy <;> rw [hy] <;> omega
    case isFalse h =>
      have hle := UInt64.not_lt.mp h
      have hsub := UInt64.toNat_sub_of_le _ _ hle
      have hle' := UInt64.le_iff_toNat_le.mp hle
      simp only [val, hsub, hopp]
      rcases hy with hy | hy <;> rw [hy] <;> omega
  case isFalse heq =>
    have hsame : x.symbol = y.symbol := not_not.mp heq
    have hsum : (x.nsec + y.nsec).toNat = x.nsec.toNat + y.nsec.toNat := by
      rw [UInt64.toNat_add]
      omega
    simp only [val, hsum, hsame]
    rcases hy with hy | hy <;> rw [hy] <;> omega

theorem lt_iff : DateTime.lt x y = true ↔ x.nsec.toNat < y.nsec.toNat :=
  decide_eq_true_iff.trans UInt64.lt_iff_toNat_lt

theorem gt_iff : DateTime.gt x y = true ↔ y.nsec.toNat < x.nsec.toNat :=
  decide_eq_true_iff.trans UInt64.lt_iff_toNat_lt

theorem eq_iff : DateTime.eq x y = true ↔ x.nsec.toNat = y.nsec.toNat ∧ x.symbol = y.symbol :=
  decide_eq_true_iff.trans (and_congr_left' UInt64.toNat_inj.symm)

/-! ## When they agree with what the values stand for -/

/-- **The operators agree with what the values stand for.** -/
structure Laws (x y : DateTime) : Prop where
  add : val (x + y) = val x + val y
  sub : val (x - y) = val x - val y
  lt : DateTime.lt x y = true ↔ val x < val y
  gt : DateTime.gt x y = true ↔ val x > val y
  eq : DateTime.eq x y = true ↔ val x = val y

/-- The zero with the symbol `-1`, and a positive value. -/
def NegativeZero (x y : DateTime) : Prop :=
  x.nsec = 0 ∧ x.symbol = -1 ∧ y.symbol = 1 ∧ y.nsec ≠ 0

/-- **The operators are right** exactly for two values with the symbol `1`, for a
value and itself, and for the zero with the symbol `-1` and a positive value. -/
theorem laws_iff (hx : Obtained x) (hy : Obtained y) (hxn : x.nsec.toNat < 2 ^ 63)
    (hyn : y.nsec.toNat < 2 ^ 63) :
    Laws x y ↔ (x.symbol = 1 ∧ y.symbol = 1) ∨ x = y ∨ NegativeZero x y ∨ NegativeZero y x := by
  have hadd := val_add hx.symbol_eq hy.symbol_eq hxn hyn
  have hlaws : Laws x y ↔ (x.nsec.toNat - y.nsec.toNat : ℤ) = val x - val y
      ∧ (x.nsec.toNat < y.nsec.toNat ↔ val x < val y)
      ∧ (y.nsec.toNat < x.nsec.toNat ↔ val x > val y)
      ∧ (x.nsec.toNat = y.nsec.toNat ∧ x.symbol = y.symbol ↔ val x = val y) := by
    rw [← val_sub, ← lt_iff, ← gt_iff, ← eq_iff]
    exact ⟨fun h => ⟨h.sub, h.lt, h.gt, h.eq⟩, fun h => ⟨hadd, h.1, h.2.1, h.2.2.1, h.2.2.2⟩⟩
  have hzero : ∀ n : UInt64, n = 0 ↔ n.toNat = 0 := fun n => UInt64.toNat_inj.symm
  have heq : x = y ↔ x.nsec.toNat = y.nsec.toNat ∧ x.symbol = y.symbol := by
    rw [UInt64.toNat_inj, DateTime.mk.injEq]
  rw [hlaws, heq]
  unfold NegativeZero val
  rw [Ne, Ne, hzero, hzero]
  rcases hx.symbol_eq with hsx | hsx <;> rcases hy.symbol_eq with hsy | hsy <;>
    rw [hsx, hsy] <;> omega

/-- One nanosecond and two: both have the symbol `1`. -/
theorem laws_one_two : Laws (ofNsec 1) (ofNsec 2) :=
  (laws_iff (.ofNsec 1) (.ofNsec 2) (by decide) (by decide)).mpr (Or.inl ⟨rfl, rfl⟩)

/-- Taking zero from minus one nanosecond gives one nanosecond. -/
theorem laws_false : ¬ ∀ x y : DateTime, Obtained x → Obtained y → x.nsec.toNat < 2 ^ 63 →
    y.nsec.toNat < 2 ^ 63 → Laws x y := by
  intro h
  have hlaws := h (default - ofNsec 1) default (.sub .default (.ofNsec 1)) .default
    (by decide) (by decide)
  exact absurd hlaws.sub (by decide)

end DateTime
