import Mathlib.Tactic.Ring
import Mathlib.Tactic.Linarith

/-!
# Byte stores and records laid out in them

A byte store maps addresses to bytes. Numbers are kept in it in
little-endian order, and a record is a family of `ByteField`s at fixed offsets
from its start. Reading a field after a write is decided by where the two
fields lie: the same field of the same record reads what was written, up to
its width; a field lying elsewhere reads what it read before. These are the
laws a program that keeps its data structures inside a raw memory is
verified with.
-/

/-- A byte store: the byte at every address. -/
abbrev ByteStore := ℕ → UInt8

namespace ByteStore

/-- The number the `n` bytes from address `a` hold, least significant byte
first. -/
def load (m : ByteStore) : ℕ → ℕ → ℕ
  | _, 0 => 0
  | a, n + 1 => (m a).toNat + 256 * load m (a + 1) n

/-- Write the `n` low bytes of `v` from address `a` on. -/
def store (m : ByteStore) (a n v : ℕ) : ByteStore :=
  fun x => if a ≤ x ∧ x < a + n then UInt8.ofNat (v / 256 ^ (x - a)) else m x

/-- **Frame**: a write changes no byte outside its range. -/
theorem store_of_not_mem {m : ByteStore} {a n v x : ℕ}
    (h : x < a ∨ a + n ≤ x) : store m a n v x = m x := by
  unfold store
  rw [if_neg (by omega)]

/-- A read depends only on the bytes of its range. -/
theorem load_congr {m m' : ByteStore} {a n : ℕ}
    (h : ∀ x, a ≤ x → x < a + n → m x = m' x) : load m a n = load m' a n := by
  induction n generalizing a with
  | zero => rfl
  | succ n ih =>
    unfold load
    rw [h a le_rfl (by omega), ih (fun x h₁ h₂ => h x (by omega) (by omega))]

/-- What `n` bytes hold is below `256 ^ n`. -/
theorem load_lt (m : ByteStore) (a n : ℕ) : load m a n < 256 ^ n := by
  induction n generalizing a with
  | zero => exact Nat.one_pos
  | succ n ih =>
    have hbyte : (m a).toNat < 256 := (m a).toNat_lt
    have hrest := ih (a + 1)
    rw [load, pow_succ']
    omega

/-- A read from within a written range gets the digits written there. -/
theorem load_store_digits (m : ByteStore) (a n v i k : ℕ) (h : i + k ≤ n) :
    load (store m a n v) (a + i) k = v / 256 ^ i % 256 ^ k := by
  induction k generalizing i with
  | zero => rw [load, pow_zero, Nat.mod_one]
  | succ k ih =>
    have hbyte : (store m a n v (a + i)).toNat = v / 256 ^ i % 256 := by
      unfold store
      rw [if_pos (by omega), Nat.add_sub_cancel_left, UInt8.toNat_ofNat']
    rw [load, hbyte, Nat.add_assoc, ih (i + 1) (by omega), pow_succ' 256 k,
      Nat.mod_mul, pow_succ, Nat.div_div_eq_div_mul]

/-- **A read gets what was written there**, up to the width. -/
theorem load_store_self (m : ByteStore) (a n v : ℕ) :
    load (store m a n v) a n = v % 256 ^ n := by
  have h := load_store_digits m a n v 0 n (by omega)
  rwa [Nat.add_zero, pow_zero, Nat.div_one] at h

/-- **A read elsewhere is not affected by a write.** -/
theorem load_store_of_apart (m : ByteStore) {a n b k : ℕ} (v : ℕ)
    (h : b + k ≤ a ∨ a + n ≤ b) : load (store m a n v) b k = load m b k :=
  load_congr (fun _ _ _ => store_of_not_mem (by omega))

end ByteStore

/-- **A field of a record**: where it starts, from the record's start, and
how many bytes it takes. -/
structure ByteField where
  /-- Bytes from the start of the record. -/
  offset : ℕ
  /-- Bytes the field takes. -/
  width : ℕ
deriving DecidableEq

namespace ByteField

variable {f g : ByteField} {m : ByteStore} {a : ℕ}

/-- The field's value in the record at address `a`. -/
def get (f : ByteField) (m : ByteStore) (a : ℕ) : ℕ := m.load (a + f.offset) f.width

/-- Assign the field in the record at address `a`. -/
def set (f : ByteField) (m : ByteStore) (a v : ℕ) : ByteStore :=
  m.store (a + f.offset) f.width v

/-- The field lies within the first `size` bytes of its record. -/
def Within (f : ByteField) (size : ℕ) : Prop := f.offset + f.width ≤ size

/-- The two fields of one record share no byte. -/
def Apart (f g : ByteField) : Prop :=
  f.offset + f.width ≤ g.offset ∨ g.offset + g.width ≤ f.offset

instance (f : ByteField) (size : ℕ) : Decidable (f.Within size) :=
  inferInstanceAs (Decidable (_ ≤ _))

instance (f g : ByteField) : Decidable (f.Apart g) :=
  inferInstanceAs (Decidable (_ ∨ _))

/-- What a field holds is bounded by its width. -/
theorem get_lt (f : ByteField) (m : ByteStore) (a : ℕ) : f.get m a < 256 ^ f.width :=
  ByteStore.load_lt m _ _

/-- A field is a function of the bytes of its record. -/
theorem get_congr {size : ℕ} {m' : ByteStore} (hf : f.Within size)
    (h : ∀ x, a ≤ x → x < a + size → m' x = m x) : f.get m' a = f.get m a := by
  unfold Within at hf
  exact ByteStore.load_congr (fun x _ _ => h x (by omega) (by omega))

/-- A field reads back what was assigned to it. -/
theorem get_set_self (f : ByteField) (m : ByteStore) (a : ℕ) {v : ℕ}
    (hv : v < 256 ^ f.width) : f.get (f.set m a v) a = v :=
  (ByteStore.load_store_self m (a + f.offset) f.width v).trans (Nat.mod_eq_of_lt hv)

/-- Assigning one field leaves the others of the record. -/
theorem get_set_of_apart (m : ByteStore) (a v : ℕ) (h : g.Apart f) :
    g.get (f.set m a v) a = g.get m a := by
  refine ByteStore.load_store_of_apart m v ?_
  unfold Apart at h
  omega

/-- Assigning a field changes no byte outside its record. -/
theorem set_of_not_mem {size x : ℕ} (m : ByteStore) (v : ℕ) (hf : f.Within size)
    (hx : x < a ∨ a + size ≤ x) : f.set m a v x = m x := by
  refine ByteStore.store_of_not_mem ?_
  unfold Within at hf
  omega

end ByteField
