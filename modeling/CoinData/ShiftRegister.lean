import Mathlib.Algebra.CharP.Two
import Mathlib.Algebra.Field.ZMod
import Mathlib.Algebra.Polynomial.Div
import Mathlib.RingTheory.AdjoinRoot
import Mathlib.GroupTheory.OrderOfElement
import Mathlib.Tactic.LinearCombination

/-!
# Linear feedback shift registers

A register of `w` bits shifts towards its lowest bit. When the bit that leaves
is set, the feedback `poly` is added, that is, exclusive-or'd. Bits are fed in
by adding them to the lowest bit before the shift.

The bits of the register are the coefficients of a polynomial over the field
of two elements, the lowest bit that of the highest power. Read so, a shift is
a multiplication by `X` modulo the *generator* `X ^ w + poly`, and what the
register holds after a string of bits is a remainder of the polynomial of
this string. The laws a checksum rests on follow from that:

* feeding at most `w` bits is adding them to the register and shifting, which
  is what a table does for several bits at once;
* where the generator has a constant term, shifting loses nothing, so strings
  that differ inside a window of `w` bits leave different remainders;
* where a power of `X` is `1` no sooner than at `n`, two flipped bits that are
  less than `n` apart change the remainder.
-/

namespace ShiftRegister

variable {w : ℕ} (poly : BitVec w)

/-- **One shift.** -/
def shift (r : BitVec w) : BitVec w :=
  if r.getLsbD 0 then (r >>> 1) ^^^ poly else r >>> 1

/-- Shift `n` times. -/
def shifts : ℕ → BitVec w → BitVec w
  | 0, r => r
  | n + 1, r => shifts n (shift poly r)

/-- Feed one bit. -/
def feedBit (r : BitVec w) (b : Bool) : BitVec w :=
  shift poly (r ^^^ BitVec.ofNat w b.toNat)

/-- **Feed a string of bits**, the first one first. -/
def feed (r : BitVec w) (bits : List Bool) : BitVec w := bits.foldl (feedBit poly) r

/-- A string of bits as a number, the first bit in the lowest place. -/
def pack (w : ℕ) : List Bool → BitVec w
  | [] => 0
  | b :: bits => BitVec.ofNat w b.toNat ^^^ (pack w bits <<< 1)

/-! ## Shifting -/

theorem shift_xor (r s : BitVec w) : shift poly (r ^^^ s) = shift poly r ^^^ shift poly s := by
  unfold shift
  rw [BitVec.getLsbD_xor, BitVec.ushiftRight_xor_distrib]
  cases r.getLsbD 0 <;> cases s.getLsbD 0
  · rfl
  · exact BitVec.xor_assoc _ _ _
  · simp only [Bool.xor_false, ↓reduceIte, Bool.false_eq_true]
    rw [BitVec.xor_assoc, BitVec.xor_comm (s >>> 1), ← BitVec.xor_assoc]
  · simp only [Bool.xor_self, Bool.false_eq_true, ↓reduceIte]
    rw [BitVec.xor_assoc, ← BitVec.xor_assoc poly, BitVec.xor_comm poly, BitVec.xor_assoc _ poly,
      BitVec.xor_self, BitVec.xor_zero]

theorem shifts_xor (n : ℕ) (r s : BitVec w) :
    shifts poly n (r ^^^ s) = shifts poly n r ^^^ shifts poly n s := by
  induction n generalizing r s with
  | zero => rfl
  | succ n ih => rw [shifts, shifts, shifts, shift_xor, ih]

/-- A register whose low bits are clear only moves down. -/
theorem shifts_of_clear {n : ℕ} {r : BitVec w} (h : ∀ i < n, r.getLsbD i = false) :
    shifts poly n r = r >>> n := by
  induction n generalizing r with
  | zero => rw [shifts, BitVec.ushiftRight_zero]
  | succ n ih =>
    have hshift : shift poly r = r >>> 1 := if_neg (by simp [h 0 n.succ_pos])
    rw [shifts, hshift, ih (fun i hi => ?_), ← BitVec.shiftRight_add, Nat.add_comm]
    rw [BitVec.getLsbD_ushiftRight, Nat.add_comm]
    exact h (i + 1) (Nat.succ_lt_succ hi)

/-- What is moved up and has not lost its top bit is there again moved down. -/
theorem shiftLeft_ushiftRight_one {r : BitVec w} (h : r.getLsbD (w - 1) = false) :
    (r <<< 1) >>> 1 = r := by
  refine BitVec.eq_of_getLsbD_eq fun i hi => ?_
  rw [BitVec.getLsbD_ushiftRight, BitVec.getLsbD_shiftLeft]
  by_cases hlast : 1 + i < w
  · simp [hlast]
  · obtain rfl : i = w - 1 := by omega
    simp [hlast, h]

theorem shift_shiftLeft {r : BitVec w} (h : r.getLsbD (w - 1) = false) :
    shift poly (r <<< 1) = r := by
  have hlow : (r <<< 1).getLsbD 0 = false := by simp
  rw [shift, hlow, if_neg Bool.false_ne_true, shiftLeft_ushiftRight_one h]

/-! ## Feeding bits -/

@[simp] theorem feed_nil (r : BitVec w) : feed poly r [] = r := rfl

@[simp] theorem feed_cons (r : BitVec w) (b : Bool) (bits : List Bool) :
    feed poly r (b :: bits) = feed poly (feedBit poly r b) bits := rfl

@[simp] theorem feed_append (r : BitVec w) (bits bits' : List Bool) :
    feed poly r (bits ++ bits') = feed poly (feed poly r bits) bits' := List.foldl_append

/-- A string of `n` bits sets none but the `n` low places. -/
theorem pack_getLsbD {bits : List Bool} {i : ℕ} (h : bits.length ≤ i) :
    (pack w bits).getLsbD i = false := by
  induction bits generalizing i with
  | nil => exact BitVec.getLsbD_zero
  | cons b bits ih =>
    rw [List.length_cons] at h
    have hb : (BitVec.ofNat w b.toNat).getLsbD i = false := by
      rw [BitVec.getLsbD_ofNat, Nat.testBit_lt_two_pow, Bool.and_false]
      calc b.toNat < 2 := b.toNat_lt
        _ ≤ 2 ^ i := Nat.le_self_pow (by omega) 2
    rw [pack, BitVec.getLsbD_xor, hb, BitVec.getLsbD_shiftLeft, ih (i := i - 1) (by omega)]
    simp

/-- **Feeding at most `w` bits is adding them and shifting.** -/
theorem feed_eq_shifts {bits : List Bool} (h : bits.length ≤ w) (r : BitVec w) :
    feed poly r bits = shifts poly bits.length (r ^^^ pack w bits) := by
  induction bits generalizing r with
  | nil => rw [feed_nil, pack, List.length_nil, shifts]; exact (BitVec.xor_zero).symm
  | cons b bits ih =>
    rw [List.length_cons] at h
    have hrest : shift poly (pack w bits <<< 1) = pack w bits :=
      shift_shiftLeft poly (pack_getLsbD (by omega))
    rw [feed_cons, ih (by omega), List.length_cons, shifts, pack, ← BitVec.xor_assoc, shift_xor,
      hrest, feedBit]

/-! ## What shifting keeps apart -/

variable {poly}

/-- The bit that leaves is the top one afterwards, where the feedback has
this bit. -/
theorem shift_injective (hpoly : poly.getLsbD (w - 1) = true) :
    Function.Injective (shift poly) := by
  intro r s h
  have hw : 0 < w := by
    rcases Nat.eq_zero_or_pos w with rfl | hw
    · simp at hpoly
    · exact hw
  have htop (t : BitVec w) : (shift poly t).getLsbD (w - 1) = t.getLsbD 0 := by
    have hdown : (t >>> 1).getLsbD (w - 1) = false := by
      rw [BitVec.getLsbD_ushiftRight]
      exact BitVec.getLsbD_of_ge _ _ (by omega)
    unfold shift
    split <;> rename_i hlow
    · rw [BitVec.getLsbD_xor, hdown, hpoly, hlow]
      rfl
    · rw [hdown, Bool.eq_false_of_not_eq_true hlow]
  have hlow : r.getLsbD 0 = s.getLsbD 0 := by rw [← htop, h, htop]
  have hdown : r >>> 1 = s >>> 1 := by
    unfold shift at h
    rw [hlow] at h
    split at h
    · exact (BitVec.xor_left_inj poly).mp h
    · exact h
  refine BitVec.eq_of_getLsbD_eq fun i hi => ?_
  match i with
  | 0 => exact hlow
  | i + 1 =>
    have hi' := congrArg (·.getLsbD i) hdown
    simpa [Nat.add_comm 1 i] using hi'

theorem shifts_injective (hpoly : poly.getLsbD (w - 1) = true) (n : ℕ) :
    Function.Injective (shifts poly n) := by
  induction n with
  | zero => exact fun r s h => h
  | succ n ih => exact fun r s h => shift_injective hpoly (ih h)

theorem feed_injective (hpoly : poly.getLsbD (w - 1) = true) (bits : List Bool) :
    Function.Injective (feed poly · bits) := by
  induction bits with
  | nil => exact fun r s h => h
  | cons b bits ih =>
    intro r s h
    exact (BitVec.xor_left_inj _).mp (shift_injective hpoly (ih h))

/-- Strings of the same length, at most `w`, are different numbers. -/
theorem pack_injective {bits bits' : List Bool} (hlen : bits.length = bits'.length)
    (hw : bits.length ≤ w) (h : pack w bits = pack w bits') : bits = bits' := by
  induction bits generalizing bits' with
  | nil => exact (List.length_eq_zero_iff.mp hlen.symm).symm
  | cons b bits ih =>
    obtain _ | ⟨b', bits'⟩ := bits'
    · simp at hlen
    rw [List.length_cons] at hw
    rw [List.length_cons, List.length_cons, Nat.add_right_cancel_iff] at hlen
    have hw0 : 0 < w := by omega
    have hlow (b : Bool) (bits : List Bool) : (pack w (b :: bits)).getLsbD 0 = b := by
      rw [pack, BitVec.getLsbD_xor, BitVec.getLsbD_shiftLeft]
      cases b <;> simp [hw0]
    obtain rfl : b = b' := by rw [← hlow b bits, h, hlow]
    refine congrArg (b :: ·) (ih hlen (by omega) ?_)
    have hup := (BitVec.xor_right_inj _).mp h
    have hdown (bits : List Bool) (hbits : bits.length ≤ w - 1) :
        (pack w bits <<< 1) >>> 1 = pack w bits :=
      shiftLeft_ushiftRight_one (pack_getLsbD hbits)
    rw [← hdown bits (by omega), hup, hdown bits' (by omega)]

/-- **Strings that differ inside a window of `w` bits leave different
registers.** -/
theorem feed_window_ne (hpoly : poly.getLsbD (w - 1) = true) (r : BitVec w)
    (before after : List Bool) {bits bits' : List Bool} (hlen : bits.length = bits'.length)
    (hw : bits.length ≤ w) (hne : bits ≠ bits') :
    feed poly r (before ++ bits ++ after) ≠ feed poly r (before ++ bits' ++ after) := by
  intro h
  simp only [feed_append] at h
  have hmid := feed_injective hpoly after h
  simp only [feed_eq_shifts poly hw, feed_eq_shifts poly (hlen.symm.trans_le hw), ← hlen] at hmid
  exact hne (pack_injective hlen hw
    ((BitVec.xor_right_inj _).mp (shifts_injective hpoly _ hmid)))

/-! ## The bits of a register -/

/-- The bits of a number, the lowest first. -/
def unpack {n : ℕ} (r : BitVec n) : List Bool := List.ofFn fun i : Fin n => r.getLsbD i

@[simp] theorem length_unpack {n : ℕ} (r : BitVec n) : (unpack r).length = n := List.length_ofFn

theorem unpack_append {m n : ℕ} (r : BitVec m) (s : BitVec n) :
    unpack (r ++ s) = unpack s ++ unpack r := by
  refine List.ext_getElem (by simp [Nat.add_comm]) fun i h₁ h₂ => ?_
  have hi : i < m + n := by simpa using h₁
  simp only [unpack, List.getElem_ofFn, List.getElem_append, List.length_ofFn,
    BitVec.getLsbD_append]
  by_cases hin : i < n
  · simp [hin]
  · simp [hin]

theorem unpack_injective {n : ℕ} : Function.Injective (unpack : BitVec n → List Bool) := by
  intro r s h
  refine BitVec.eq_of_getLsbD_eq fun i hi => ?_
  exact congrFun (List.ofFn_injective h) ⟨i, hi⟩

theorem pack_getLsbD_of_lt {bits : List Bool} {i : ℕ} (hi : i < w) :
    (pack w bits).getLsbD i = bits.getD i false := by
  induction bits generalizing i with
  | nil => simp [pack]
  | cons b bits ih =>
    rw [pack, BitVec.getLsbD_xor, BitVec.getLsbD_shiftLeft]
    match i with
    | 0 => cases b <;> simp [hi]
    | i + 1 =>
      rw [Nat.add_sub_cancel, ih (by omega)]
      cases b <;> simp [hi]

/-- **To pack the bits of a number is to extend or cut it.** -/
theorem pack_unpack {n : ℕ} (r : BitVec n) : pack w (unpack r) = r.setWidth w := by
  refine BitVec.eq_of_getLsbD_eq fun i hi => ?_
  rw [pack_getLsbD_of_lt hi, BitVec.getLsbD_setWidth, unpack]
  by_cases hin : i < n
  · simp [hi, hin]
  · simp [hin, BitVec.getLsbD_of_ge r i (by omega)]

/-- **A register that is fed its own bits is cleared**, and nothing else
clears it. -/
theorem feed_unpack_eq_zero_iff (hpoly : poly.getLsbD (w - 1) = true) (r s : BitVec w) :
    feed poly r (unpack s) = 0 ↔ s = r := by
  have hzero : shifts poly w 0 = 0 :=
    (shifts_of_clear poly fun i _ => BitVec.getLsbD_zero).trans BitVec.zero_ushiftRight
  rw [feed_eq_shifts poly (length_unpack s).le, length_unpack, pack_unpack, BitVec.setWidth_eq]
  constructor
  · intro h
    have hxor := shifts_injective hpoly w (h.trans hzero.symm)
    exact (BitVec.xor_eq_zero_iff.mp hxor).symm
  · rintro rfl
    rw [BitVec.xor_self]
    exact hzero

/-- **Several bits at once**: those of the low places are looked up, the
others move down. -/
theorem shifts_eq_lookup (poly : BitVec w) (k : ℕ) (r : BitVec w) :
    shifts poly k r = shifts poly k (r &&& BitVec.ofNat w (2 ^ k - 1)) ^^^ (r >>> k) := by
  have hmask (i : ℕ) (hi : i < w) :
      (BitVec.ofNat w (2 ^ k - 1)).getLsbD i = decide (i < k) := by
    rw [BitVec.getLsbD_ofNat, Nat.testBit_two_pow_sub_one, decide_eq_true hi, Bool.true_and]
  have hsplit : r = (r &&& BitVec.ofNat w (2 ^ k - 1)) ^^^ ((r >>> k) <<< k) := by
    refine BitVec.eq_of_getLsbD_eq fun i hi => ?_
    rw [BitVec.getLsbD_xor, BitVec.getLsbD_and, hmask i hi, BitVec.getLsbD_shiftLeft,
      BitVec.getLsbD_ushiftRight]
    by_cases hik : i < k
    · simp [hik]
    · simp [hik, hi, show k + (i - k) = i by omega]
  have hclear : ∀ i < k, ((r >>> k) <<< k).getLsbD i = false := fun i hi => by
    simp [BitVec.getLsbD_shiftLeft, hi]
  have hdown : ((r >>> k) <<< k) >>> k = r >>> k := by
    refine BitVec.eq_of_getLsbD_eq fun i hi => ?_
    simp only [BitVec.getLsbD_ushiftRight, BitVec.getLsbD_shiftLeft, Nat.add_sub_cancel_left]
    by_cases hik : k + i < w
    · simp [hik]
    · simp [hik, BitVec.getLsbD_of_ge r (k + i) (by omega)]
  conv_lhs => rw [hsplit, shifts_xor, shifts_of_clear poly hclear, hdown]

/-! ## Registers as polynomials -/

open Polynomial

/-- **The polynomial of a register**: its lowest bit is the coefficient of the
highest power. -/
noncomputable def toPoly (r : BitVec w) : (ZMod 2)[X] :=
  ∑ k ∈ Finset.range w, if r.getMsbD k then X ^ k else 0

/-- **What the register divides by.** -/
noncomputable def generator (poly : BitVec w) : (ZMod 2)[X] := X ^ w + toPoly poly

/-- **The polynomial of a string of bits**: the first one is the coefficient
of the highest power. -/
noncomputable def ofBits : List Bool → (ZMod 2)[X]
  | [] => 0
  | b :: bits => (if b then X ^ bits.length else 0) + ofBits bits

@[simp] theorem coeff_toPoly (r : BitVec w) (k : ℕ) :
    (toPoly r).coeff k = if r.getMsbD k then 1 else 0 := by
  have hterm (i : ℕ) : (if r.getMsbD i then X ^ i else (0 : (ZMod 2)[X])).coeff k
      = if i = k then (if r.getMsbD k then 1 else 0) else 0 := by
    by_cases hik : i = k
    · subst hik
      split <;> simp
    · split <;> simp [coeff_X_pow, Ne.symm hik]
  rw [toPoly, finsetSum_coeff, Finset.sum_congr rfl fun i _ => hterm i,
    Finset.sum_ite_eq' (Finset.range w)]
  split <;> rename_i hk
  · rfl
  · rw [BitVec.getMsbD_of_ge _ _ (by simpa using hk), if_neg Bool.false_ne_true]

theorem degree_toPoly_lt (r : BitVec w) : (toPoly r).degree < w := by
  rw [degree_lt_iff_coeff_zero]
  intro k hk
  rw [coeff_toPoly, BitVec.getMsbD_of_ge _ _ hk, if_neg Bool.false_ne_true]

theorem toPoly_injective : Function.Injective (toPoly : BitVec w → (ZMod 2)[X]) := by
  intro r s h
  refine BitVec.eq_of_getMsbD_eq fun k _ => ?_
  have hk := congrArg (·.coeff k) h
  simp only [coeff_toPoly] at hk
  have hne : (0 : ZMod 2) ≠ 1 := by decide
  cases hr : r.getMsbD k <;> cases hs : s.getMsbD k <;> simp_all

theorem toPoly_xor (r s : BitVec w) : toPoly (r ^^^ s) = toPoly r + toPoly s := by
  ext k
  rw [coeff_add, coeff_toPoly, coeff_toPoly, coeff_toPoly, BitVec.getMsbD_xor]
  cases r.getMsbD k <;> cases s.getMsbD k <;> decide

theorem monic_generator (poly : BitVec w) : (generator poly).Monic :=
  monic_X_pow_add (degree_toPoly_lt poly)

theorem degree_generator (poly : BitVec w) : (generator poly).degree = w := by
  rw [generator, degree_add_eq_left_of_degree_lt, degree_X_pow]
  rw [degree_X_pow]
  exact degree_toPoly_lt poly

/-- **A shift multiplies by `X`**, modulo the generator. -/
theorem toPoly_shift (poly r : BitVec w) :
    toPoly (shift poly r) = X * toPoly r + if r.getLsbD 0 then generator poly else 0 := by
  have hdown : toPoly (r >>> 1) = X * toPoly r + if r.getLsbD 0 then X ^ w else 0 := by
    ext k
    rw [coeff_add, coeff_toPoly, BitVec.getMsbD_ushiftRight]
    match k with
    | 0 =>
      have hnone : (if r.getLsbD 0 then X ^ w else (0 : (ZMod 2)[X])).coeff 0 = 0 := by
        match w, r with
        | 0, r => simp
        | w + 1, r => split <;> simp
      rw [coeff_X_mul_zero, hnone]
      simp
    | k + 1 =>
      rw [coeff_X_mul, coeff_toPoly]
      rcases Nat.lt_trichotomy (k + 1) w with hk | rfl | hk
      · have hnone : (if r.getLsbD 0 then X ^ w else (0 : (ZMod 2)[X])).coeff (k + 1) = 0 := by
          split <;> simp [coeff_X_pow, hk.ne]
        simp [hnone, hk]
      · have hlow : r.getMsbD k = r.getLsbD 0 := by simp [BitVec.getMsbD_eq_getLsbD]
        rw [hlow]
        cases r.getLsbD 0
        · simp
        · simp [CharTwo.add_self_eq_zero]
      · have hnone : (if r.getLsbD 0 then X ^ w else (0 : (ZMod 2)[X])).coeff (k + 1) = 0 := by
          split <;> simp [coeff_X_pow, hk.ne']
        rw [hnone, BitVec.getMsbD_of_ge r k (by omega)]
        simp [show ¬ k + 1 < w by omega]
  unfold shift
  split <;> rename_i hlow
  · rw [toPoly_xor, hdown, if_pos hlow, generator, add_assoc]
  · rw [hdown, if_neg hlow]

/-- **A bit is fed as the coefficient of `X ^ w`**, modulo the generator. -/
theorem toPoly_feedBit (hw : 0 < w) (poly r : BitVec w) (b : Bool) :
    generator poly ∣ toPoly (feedBit poly r b) - (X * toPoly r + if b then X ^ w else 0) := by
  have hbit : toPoly (BitVec.ofNat w b.toNat) = if b then X ^ (w - 1) else 0 := by
    ext k
    rw [coeff_toPoly, BitVec.getMsbD_eq_getLsbD, BitVec.getLsbD_ofNat]
    cases b
    · simp
    · by_cases hk : k = w - 1
      · subst hk
        simp [hw]
      · have hlow (hkw : k < w) : Nat.testBit 1 (w - 1 - k) = false := by
          refine Bool.eq_false_iff.mpr fun h => ?_
          have := Nat.testBit_one_eq_true_iff_self_eq_zero.mp h
          omega
        by_cases hkw : k < w
        · simp [hlow hkw, hk, coeff_X_pow]
        · simp [hkw, hk, coeff_X_pow]
  have htop : X * (if b then X ^ (w - 1) else 0) = if b then X ^ w else (0 : (ZMod 2)[X]) := by
    cases b
    · simp
    · simp only [if_true]
      rw [← pow_succ', Nat.sub_add_cancel hw]
  rw [feedBit, toPoly_shift, toPoly_xor, hbit, mul_add, htop, add_sub_cancel_left]
  split
  · exact dvd_rfl
  · exact dvd_zero _

/-- What a register stands for: its polynomial modulo the generator. -/
noncomputable def residue (poly r : BitVec w) : AdjoinRoot (generator poly) :=
  AdjoinRoot.mk (generator poly) (toPoly r)

theorem residue_injective (poly : BitVec w) : Function.Injective (residue poly) := by
  intro r s h
  rw [residue, residue, AdjoinRoot.mk_eq_mk] at h
  refine toPoly_injective (sub_eq_zero.mp (eq_zero_of_dvd_of_degree_lt h ?_))
  rw [degree_generator]
  exact (degree_sub_le _ _).trans_lt (max_lt (degree_toPoly_lt r) (degree_toPoly_lt s))

theorem residue_xor (poly r s : BitVec w) :
    residue poly (r ^^^ s) = residue poly r + residue poly s := by
  rw [residue, toPoly_xor, map_add]
  rfl

/-- **A shift multiplies by the root** of the generator. -/
theorem residue_shift (poly r : BitVec w) :
    residue poly (shift poly r) = AdjoinRoot.root (generator poly) * residue poly r := by
  rw [residue, toPoly_shift, map_add, map_mul, AdjoinRoot.mk_X]
  split
  · rw [AdjoinRoot.mk_self, add_zero, residue]
  · rw [map_zero, add_zero, residue]

theorem residue_feed (hw : 0 < w) (poly r : BitVec w) (bits : List Bool) :
    residue poly (feed poly r bits)
      = AdjoinRoot.mk (generator poly) (toPoly r * X ^ bits.length + ofBits bits * X ^ w) := by
  induction bits generalizing r with
  | nil => simp [ofBits, residue]
  | cons b bits ih =>
    have hb : residue poly (feedBit poly r b)
        = AdjoinRoot.mk (generator poly) (X * toPoly r + if b then X ^ w else 0) :=
      AdjoinRoot.mk_eq_mk.mpr (toPoly_feedBit hw poly r b)
    rw [feed_cons, ih, map_add, map_mul]
    change residue poly (feedBit poly r b) * _ + _ = _
    rw [hb, ← map_mul, ← map_add, ofBits, List.length_cons]
    refine congrArg _ ?_
    cases b
    · simp only [Bool.false_eq_true, if_false]
      ring
    · simp only [if_true]
      ring

/-- **What a register holds is a remainder** of what it held and was fed. -/
theorem toPoly_feed (hw : 0 < w) (poly r : BitVec w) (bits : List Bool) :
    toPoly (feed poly r bits)
      = (toPoly r * X ^ bits.length + ofBits bits * X ^ w) %ₘ generator poly := by
  have hmod := AdjoinRoot.mk_eq_mk.mp (residue_feed hw poly r bits)
  rw [← (modByMonic_eq_self_iff (monic_generator poly)).mpr
    ((degree_toPoly_lt (feed poly r bits)).trans_eq (degree_generator poly).symm)]
  have hzero := (modByMonic_eq_zero_iff_dvd (monic_generator poly)).mpr hmod
  rwa [sub_modByMonic, sub_eq_zero] at hzero

/-! ## Powers -/

/-- The register that stands for `1`. -/
def one (w : ℕ) : BitVec w := BitVec.twoPow w (w - 1)

/-- The product, with `n` coefficients of `b` still to be looked at. -/
def mulFrom (poly a b : BitVec w) : ℕ → BitVec w → BitVec w
  | 0, acc => acc
  | n + 1, acc => mulFrom poly a b n (shift poly acc ^^^ if b.getMsbD n then a else 0)

/-- **The product of two registers.** -/
def mul (poly a b : BitVec w) : BitVec w := mulFrom poly a b w 0

/-- The number that the digits stand for, the highest one first. -/
def ofDigits (digits : List Bool) : ℕ := digits.foldl (fun n d => 2 * n + d.toNat) 0

/-- One more digit of the exponent. -/
def powerStep (poly a acc : BitVec w) (d : Bool) : BitVec w :=
  if d then mul poly (mul poly acc acc) a else mul poly acc acc

/-- **A power**, by squaring: the digits are those of the exponent. -/
def power (poly a : BitVec w) (digits : List Bool) : BitVec w :=
  digits.foldl (powerStep poly a) (one w)

theorem residue_zero (poly : BitVec w) : residue poly 0 = 0 := by
  have hzero : toPoly (0 : BitVec w) = 0 := by
    ext k
    simp
  rw [residue, hzero, map_zero]

theorem residue_one (hw : 0 < w) (poly : BitVec w) : residue poly (one w) = 1 := by
  have hone : toPoly (one w) = 1 := by
    ext k
    rw [coeff_toPoly, one, BitVec.getMsbD_eq_getLsbD, BitVec.getLsbD_twoPow, coeff_one]
    by_cases hk : k = 0
    · simp [hk, hw]
    · have hne : k < w → ¬ w - 1 = w - 1 - k := by omega
      by_cases hkw : k < w
      · simp [hk, hne hkw]
      · simp [hk, hkw]
  rw [residue, hone, map_one]

theorem residue_mulFrom (poly a b : BitVec w) (n : ℕ) (acc : BitVec w) :
    residue poly (mulFrom poly a b n acc)
      = residue poly acc * AdjoinRoot.root (generator poly) ^ n
        + residue poly a * AdjoinRoot.mk (generator poly)
            (∑ k ∈ Finset.range n, if b.getMsbD k then X ^ k else 0) := by
  induction n generalizing acc with
  | zero => simp [mulFrom]
  | succ n ih =>
    have hbit : residue poly (if b.getMsbD n then a else 0)
        = residue poly a * AdjoinRoot.mk (generator poly) (if b.getMsbD n then 1 else 0) := by
      split
      · rw [map_one, mul_one]
      · rw [map_zero, mul_zero, residue_zero]
    have hpow : (if b.getMsbD n then X ^ n else 0)
        = (if b.getMsbD n then 1 else (0 : (ZMod 2)[X])) * X ^ n := by
      split
      · rw [one_mul]
      · rw [zero_mul]
    rw [mulFrom, ih, residue_xor, residue_shift, hbit, Finset.sum_range_succ, hpow, map_add,
      map_mul, map_pow, AdjoinRoot.mk_X]
    ring

theorem residue_mul (poly a b : BitVec w) :
    residue poly (mul poly a b) = residue poly a * residue poly b := by
  rw [mul, residue_mulFrom, residue_zero, zero_mul, zero_add]
  rfl

theorem residue_power (hw : 0 < w) (poly a : BitVec w) (digits : List Bool) :
    residue poly (power poly a digits) = residue poly a ^ ofDigits digits := by
  suffices h : ∀ (acc : BitVec w) (n : ℕ), residue poly acc = residue poly a ^ n →
      residue poly (digits.foldl (powerStep poly a) acc)
      = residue poly a ^ digits.foldl (fun n d => 2 * n + d.toNat) n from
    h (one w) 0 (by rw [residue_one hw, pow_zero])
  induction digits with
  | nil => exact fun acc n h => h
  | cons d digits ih =>
    intro acc n h
    refine ih _ _ ?_
    cases d
    · simp only [powerStep, Bool.false_eq_true, if_false, Bool.toNat_false, residue_mul, h]
      ring
    · simp only [powerStep, if_true, Bool.toNat_true, residue_mul, h]
      ring

/-- The root stands in the register after one shift of `1`. -/
theorem root_eq_residue (hw : 0 < w) (poly : BitVec w) :
    AdjoinRoot.root (generator poly) = residue poly (shift poly (one w)) := by
  rw [residue_shift, residue_one hw, mul_one]

/-- **A power is `1` exactly if its register says so.** -/
theorem residue_pow_eq_one_iff (hw : 0 < w) (poly a : BitVec w) (digits : List Bool) :
    residue poly a ^ ofDigits digits = 1 ↔ power poly a digits = one w := by
  rw [← residue_power hw, ← residue_one hw, (residue_injective poly).eq_iff]

/-! ## Two flipped bits -/

theorem ofBits_append (bits bits' : List Bool) :
    ofBits (bits ++ bits') = ofBits bits * X ^ bits'.length + ofBits bits' := by
  induction bits with
  | nil => simp [ofBits]
  | cons b bits ih =>
    rw [List.cons_append, ofBits, ofBits, ih, List.length_append, add_mul, ← add_assoc]
    cases b
    · simp
    · simp [pow_add]

/-- Two flipped bits change the polynomial at their places. -/
theorem ofBits_flip (before between after : List Bool) (a b : Bool) :
    ofBits (before ++ a :: (between ++ b :: after))
        - ofBits (before ++ (!a) :: (between ++ (!b) :: after))
      = X ^ after.length * (X ^ (between.length + 1) + 1) := by
  have hflip (c : Bool) (n : ℕ) :
      (if c then X ^ n else (0 : (ZMod 2)[X])) - (if !c then X ^ n else 0) = X ^ n := by
    cases c
    · simp [CharTwo.neg_eq]
    · simp
  simp only [ofBits_append, ofBits, List.length_append, List.length_cons]
  linear_combination hflip a (between.length + (after.length + 1)) + hflip b after.length

/-- **Two flipped bits change the remainder**, if no power of `X` as small as
their distance is `1`. -/
theorem feed_flip_ne (hw : 0 < w) {poly : BitVec w} {n : ℕ}
    (horder : orderOf (AdjoinRoot.root (generator poly)) = n) (r : BitVec w)
    (before between after : List Bool) (a b : Bool) (hn : between.length + 1 < n) :
    feed poly r (before ++ a :: (between ++ b :: after))
      ≠ feed poly r (before ++ (!a) :: (between ++ (!b) :: after)) := by
  intro h
  have hlen : (before ++ (!a) :: (between ++ (!b) :: after)).length
      = (before ++ a :: (between ++ b :: after)).length := by simp
  have hmod := congrArg (residue poly) h
  rw [residue_feed hw, residue_feed hw, hlen, map_add, map_add, add_right_inj, ← sub_eq_zero,
    ← map_sub, ← sub_mul, ofBits_flip, map_mul, map_mul, map_pow, map_pow, map_add, map_pow,
    map_one, AdjoinRoot.mk_X] at hmod
  have hroot : AdjoinRoot.root (generator poly) ^ n = 1 := horder ▸ pow_orderOf_eq_one _
  have hunit : IsUnit (AdjoinRoot.root (generator poly)) :=
    IsUnit.of_pow_eq_one hroot (by omega)
  rw [(hunit.pow w).mul_left_eq_zero, (hunit.pow _).mul_right_eq_zero] at hmod
  have htwo : (1 : AdjoinRoot (generator poly)) + 1 = 0 := by
    rw [← map_one (AdjoinRoot.mk (generator poly)), ← map_add, CharTwo.add_self_eq_zero, map_zero]
  have hone : AdjoinRoot.root (generator poly) ^ (between.length + 1) = 1 :=
    add_right_cancel (hmod.trans htwo.symm)
  have hdvd := orderOf_dvd_of_pow_eq_one hone
  have hle := Nat.le_of_dvd between.length.succ_pos hdvd
  omega

end ShiftRegister
