import Mathlib.Algebra.Order.Ring.Int
import Mathlib.Data.List.Basic
import Mathlib.Data.List.TakeWhile
import Mathlib.Tactic.IntervalCases
import Mathlib.Tactic.Linarith

/-!
# Parameters as text

A leaf is written with `to_string` and read with `from_string`. An integer is
written in decimal, and read from a stream; a vector is what is written for its
elements, with commas between and brackets around, and what is between the
commas is read as an element. `leaf_iff` says for which values what was written
is what is read.

A stream has the integers of eight bits for characters, so that it reads the
first digit of what was written. A vector is not emptied before it is read, and
between the brackets of one without elements there is one element, to the
stream; what it holds then is what the variable has held, which is a parameter
here (`uninit`). A comma in a string stands for what it stands for between
elements.
-/

/-- The characters of a `std::string`. -/
abbrev Text := List Char

/-! ## Integers -/

/-- How wide an integer is. -/
inductive IntWidth where
  | w8
  | w16
  | w32
  | w64
deriving DecidableEq, Repr

/-- The number of bits. -/
def IntWidth.bits : IntWidth → ℕ
  | .w8 => 8
  | .w16 => 16
  | .w32 => 32
  | .w64 => 64

/-- The integer types. -/
inductive IntType where
  | bool
  | int (signed : Bool) (width : IntWidth)
deriving DecidableEq, Repr

namespace IntType

/-- The smallest value. -/
def minValue : IntType → ℤ
  | .bool => 0
  | .int true w => -2 ^ (w.bits - 1)
  | .int false _ => 0

/-- The largest value. -/
def maxValue : IntType → ℤ
  | .bool => 1
  | .int true w => 2 ^ (w.bits - 1) - 1
  | .int false w => 2 ^ w.bits - 1

/-- **The values of a type.** -/
def Value (t : IntType) : Type := { z : ℤ // t.minValue ≤ z ∧ z ≤ t.maxValue }

instance (t : IntType) : DecidableEq t.Value := inferInstanceAs (DecidableEq { _z : ℤ // _ })

/-- A stream has it for a character. -/
def isChar : IntType → Bool
  | .int _ .w8 => true
  | _ => false

/-- The value of a character. -/
def ofChar (t : IntType) (c : Char) : ℤ :=
  match t with
  | .int true w => Int.bmod c.toNat (2 ^ w.bits)
  | .int false w => c.toNat % 2 ^ w.bits
  | .bool => 0

/-- What becomes of a sign and digits: a number that is out of range is the
limit, and a negative one of an unsigned type goes around. Any `bool` but zero
is one. -/
def store (t : IntType) (negative : Bool) (m : ℕ) : ℤ :=
  match t with
  | .bool => if m = 0 then 0 else 1
  | .int true w =>
    if negative then max (IntType.int true w).minValue (-m)
    else min (IntType.int true w).maxValue m
  | .int false w =>
    if (m : ℤ) ≤ (IntType.int false w).maxValue then
      if negative then -m % 2 ^ w.bits else m
    else (IntType.int false w).maxValue

end IntType

/-- `isspace`. -/
def isSpace (c : Char) : Bool := c = ' ' ∨ 9 ≤ c.toNat ∧ c.toNat ≤ 13

/-- A sign, and what is behind it. -/
def readSign : Text → Bool × Text
  | '-' :: cs => (true, cs)
  | '+' :: cs => (false, cs)
  | cs => (false, cs)

/-- **`ss >> data`**, when `data` is `old`: white space is skipped, and nothing is
read if there is nothing else; where there is no digit it is zero. -/
def IntType.extract (t : IntType) (old : ℤ) (text : Text) : ℤ :=
  match text.dropWhile isSpace with
  | [] => old
  | c :: cs =>
    if t.isChar then t.ofChar c
    else
      let (negative, cs) := readSign (c :: cs)
      match cs.takeWhile Char.isDigit with
      | [] => 0
      | d :: ds => t.store negative (Nat.ofDigitChars 10 (d :: ds) 0)

/-- **`std::to_string`**. -/
def stdToString (z : ℤ) : Text :=
  if z < 0 then '-' :: Nat.toDigits 10 z.natAbs else Nat.toDigits 10 z.natAbs

namespace IntType

variable {t : IntType} {old : ℤ} {text : Text}

theorem minValue_le_zero (t : IntType) : t.minValue ≤ 0 := by
  cases t with
  | bool => exact le_rfl
  | int signed w =>
    cases signed with
    | true => exact neg_nonpos.mpr (by positivity)
    | false => exact le_rfl

theorem zero_le_maxValue (t : IntType) : 0 ≤ t.maxValue := by
  cases t with
  | bool => exact zero_le_one
  | int signed w => cases signed <;> cases w <;> decide

/-- What is stored is a value of the type. -/
theorem store_mem (t : IntType) (negative : Bool) (m : ℕ) :
    t.minValue ≤ t.store negative m ∧ t.store negative m ≤ t.maxValue := by
  cases t with
  | bool =>
    show (0 : ℤ) ≤ (if m = 0 then 0 else 1) ∧ (if m = 0 then 0 else 1) ≤ (1 : ℤ)
    split <;> decide
  | int signed w =>
    have hmin := (IntType.int signed w).minValue_le_zero
    have hmax := (IntType.int signed w).zero_le_maxValue
    cases signed with
    | true =>
      unfold store
      dsimp only
      cases negative with
      | true => exact ⟨le_max_left _ _, max_le (hmin.trans hmax) (by omega)⟩
      | false => exact ⟨le_min (hmin.trans hmax) (by omega), min_le_left _ _⟩
    | false =>
      have hpos : (0 : ℤ) < 2 ^ w.bits := by positivity
      unfold store
      dsimp only
      split
      · next hle =>
        cases negative with
        | true =>
          exact ⟨Int.emod_nonneg _ hpos.ne', Int.le_sub_one_of_lt (Int.emod_lt_of_pos _ hpos)⟩
        | false => exact ⟨Int.natCast_nonneg m, hle⟩
      · exact ⟨hmin.trans hmax, le_rfl⟩

theorem ofChar_mem (t : IntType) (c : Char) :
    t.minValue ≤ t.ofChar c ∧ t.ofChar c ≤ t.maxValue := by
  cases t with
  | bool => exact ⟨le_rfl, zero_le_one⟩
  | int signed w =>
    cases signed with
    | true =>
      have hle := Int.le_bmod (x := c.toNat) (m := 2 ^ w.bits) (by positivity)
      have hlt := Int.bmod_lt (x := c.toNat) (m := 2 ^ w.bits) (by positivity)
      unfold ofChar minValue maxValue
      dsimp only
      cases w <;> simp only [IntWidth.bits] at hle hlt ⊢ <;> omega
    | false =>
      have hpos : (0 : ℤ) < 2 ^ w.bits := by positivity
      exact ⟨Int.emod_nonneg _ hpos.ne', Int.le_sub_one_of_lt (Int.emod_lt_of_pos _ hpos)⟩

theorem extract_mem (h : t.minValue ≤ old ∧ old ≤ t.maxValue) (text : Text) :
    t.minValue ≤ t.extract old text ∧ t.extract old text ≤ t.maxValue := by
  unfold extract
  split
  · exact h
  split
  · exact t.ofChar_mem _
  dsimp only
  split
  · exact ⟨t.minValue_le_zero, t.zero_le_maxValue⟩
  · exact t.store_mem _ _

end IntType

/-! ## The adapters -/

/-- The types of an element. -/
inductive TextType where
  | string
  | int (t : IntType)
deriving DecidableEq, Repr

namespace TextType

/-- The values of an element. -/
@[reducible] def Value : TextType → Type
  | .string => Text
  | .int t => t.Value

/-- **`to_string`**. -/
def toText : (s : TextType) → s.Value → Text
  | .string, data => data
  | .int _, data => stdToString data.val

/-- **`from_string`**, when `data` holds a value. -/
def ofText : (s : TextType) → Text → s.Value → s.Value
  | .string, str, _ => str
  | .int t, str, data => ⟨t.extract data.val str, t.extract_mem data.property str⟩

/-- What `T v;` holds: a string is empty, and an integer is whatever was
there. -/
def fresh (uninit : (t : IntType) → t.Value) : (s : TextType) → s.Value
  | .string => []
  | .int t => uninit t

/-- **`to_string` of a vector.** -/
def vectorToText (s : TextType) (data : List s.Value) : Text :=
  let str := data.foldl (fun str v => str ++ s.toText v ++ [',']) []
  '[' :: str.take (str.length - 1) ++ [']']

/-- **`from_string` of a vector**: what `getline` takes until the end of the stream
is what is between the commas. A text without characters has no `substr(1)`. -/
def vectorOfText (uninit : (t : IntType) → t.Value) (s : TextType) (str : Text)
    (data : List s.Value) : Option (List s.Value) :=
  if str = [] then none
  else
    let inner := (str.drop 1).take (str.length - 2)
    some (data ++ (inner.splitOn ',').map fun d => s.ofText d (s.fresh uninit))

end TextType

/-- The types of a leaf. -/
inductive LeafTextType where
  | scalar (s : TextType)
  | vector (s : TextType)
deriving DecidableEq, Repr

namespace LeafTextType

/-- The values of a leaf. -/
@[reducible] def Value : LeafTextType → Type
  | .scalar s => s.Value
  | .vector s => List s.Value

/-- **`AnyDataItem::to_string`**. -/
def toText : (t : LeafTextType) → t.Value → Text
  | .scalar s, data => s.toText data
  | .vector s, data => s.vectorToText data

/-- **`AnyDataItem::from_string`** on an item that holds `data`. -/
def ofText (uninit : (t : IntType) → t.Value) :
    (t : LeafTextType) → Text → t.Value → Option t.Value
  | .scalar s, str, data => some (s.ofText str data)
  | .vector s, str, data => s.vectorOfText uninit str data

end LeafTextType

/-- **An element can be read again between commas**: a string without a comma, an
integer of more than eight bits, or the one of eight bits that is the first
digit of itself. -/
def TextType.Keeps : (s : TextType) → s.Value → Prop
  | .string, x => ',' ∉ x
  | .int t, x => t.isChar = true → x.val = 53

/-- **What was written can be read**, into an item that holds `data`. -/
def LeafTextType.Keeps : (t : LeafTextType) → (x data : t.Value) → Prop
  | .scalar .string, _, _ => True
  | .scalar (.int t), x, _ => (TextType.int t).Keeps x
  | .vector s, x, data => data = [] ∧ x ≠ [] ∧ ∀ v ∈ x, s.Keeps v

/-! ## Integers are read as they were written -/

theorem isDigit_toDigits {n : ℕ} {c : Char} (hc : c ∈ Nat.toDigits 10 n) : c.isDigit = true :=
  Nat.isDigit_of_mem_toDigits (by decide) (by decide) hc

/-- A digit is no space, no sign, and no comma. -/
theorem isSpace_of_isDigit {c : Char} (hc : c.isDigit = true) :
    isSpace c = false ∧ c ≠ '-' ∧ c ≠ '+' ∧ c ≠ ',' := by
  have hle := (Char.isDigit_iff_toNat.mp hc).1
  have hne : ∀ c' : Char, c'.toNat < 48 → c ≠ c' := by
    rintro c' hlt rfl
    exact absurd hle (Nat.not_le.mpr hlt)
  refine ⟨?_, hne '-' (by decide), hne '+' (by decide), hne ',' (by decide)⟩
  unfold isSpace
  refine decide_eq_false ?_
  rintro (h | ⟨_, h⟩)
  · exact hne ' ' (by decide) h
  · exact absurd (hle.trans h) (by decide)

/-- What is written begins with a sign, and goes on with digits. -/
theorem stdToString_cases (z : ℤ) :
    ∃ d ds, Nat.toDigits 10 z.natAbs = d :: ds ∧ (∀ c ∈ d :: ds, c.isDigit = true)
      ∧ stdToString z = if z < 0 then '-' :: d :: ds else d :: ds := by
  have hne : Nat.toDigits 10 z.natAbs ≠ [] := Nat.toDigits_ne_nil
  obtain ⟨d, ds, hdigits⟩ := List.exists_cons_of_ne_nil hne
  refine ⟨d, ds, hdigits, fun c hc => isDigit_toDigits (hdigits ▸ hc), ?_⟩
  unfold stdToString
  rw [hdigits]

/-- There is no comma in it. -/
theorem comma_not_mem_stdToString (z : ℤ) : ',' ∉ stdToString z := by
  obtain ⟨d, ds, _, hdigit, heq⟩ := stdToString_cases z
  have hnot : ',' ∉ d :: ds := fun hmem => (isSpace_of_isDigit (hdigit _ hmem)).2.2.2 rfl
  rw [heq]
  split
  · intro hmem
    rcases List.mem_cons.mp hmem with h | h
    · exact absurd h (by decide)
    · exact hnot h
  · exact hnot

namespace IntType

variable {t : IntType} {old : ℤ}

/-- **A value of the type is stored** as itself. -/
theorem store_value (x : t.Value) : t.store (decide (x.val < 0)) x.val.natAbs = x.val := by
  obtain ⟨z, hmin, hmax⟩ := x
  dsimp only
  cases t with
  | bool =>
    have hmin' : 0 ≤ z := hmin
    have hmax' : z ≤ 1 := hmax
    show (if z.natAbs = 0 then 0 else 1) = z
    split <;> omega
  | int signed w =>
    cases signed with
    | true =>
      unfold store
      by_cases hneg : z < 0
      · simp only [decide_eq_true hneg, if_true]
        rw [max_eq_right] <;> omega
      · simp only [decide_eq_false hneg, Bool.false_eq_true, if_false]
        rw [min_eq_right] <;> omega
    | false =>
      have hmin' : 0 ≤ z := hmin
      have hle : (z.natAbs : ℤ) ≤ (IntType.int false w).maxValue := by omega
      unfold store
      dsimp only
      rw [if_pos hle]
      simp only [decide_eq_false (not_lt.mpr hmin'), Bool.false_eq_true, if_false]
      omega

/-- **What was written is read**, if it is not read as a character. -/
theorem extract_stdToString (hchar : t.isChar = false) (x : t.Value) :
    t.extract old (stdToString x.val) = x.val := by
  obtain ⟨d, ds, hdigits, hdigit, heq⟩ := stdToString_cases x.val
  obtain ⟨hspace, hminus, hplus, _⟩ := isSpace_of_isDigit (hdigit d List.mem_cons_self)
  have htake : (d :: ds).takeWhile Char.isDigit = d :: ds := List.takeWhile_eq_self_iff.mpr hdigit
  have hvalue : Nat.ofDigitChars 10 (d :: ds) 0 = x.val.natAbs := by
    rw [← hdigits]
    exact Nat.ofDigitChars_ten_toDigits
  have hstore := store_value x
  rw [heq]
  unfold extract
  by_cases hneg : x.val < 0
  · rw [decide_eq_true hneg] at hstore
    rw [if_pos hneg, List.dropWhile_cons_of_neg (by decide)]
    simp only [hchar, Bool.false_eq_true, if_false, readSign, htake, hvalue, hstore]
  · rw [decide_eq_false hneg] at hstore
    have hsign : readSign (d :: ds) = (false, d :: ds) := by
      unfold readSign
      split <;> simp_all
    rw [if_neg hneg, List.dropWhile_cons_of_neg (by simp [hspace])]
    simp only [hchar, Bool.false_eq_true, if_false, hsign, htake, hvalue, hstore]

/-- One byte of ASCII is its code, signed or not. -/
theorem ofChar_of_lt (hchar : t.isChar = true) {c : Char} (hc : c.toNat < 128) :
    t.ofChar c = c.toNat := by
  cases t with
  | bool => cases hchar
  | int signed w =>
    cases w with
    | w8 =>
      unfold ofChar
      cases signed with
      | true => exact Int.bmod_eq_of_le (by simp [IntWidth.bits]) (by simp [IntWidth.bits]; omega)
      | false =>
        have hlt : (c.toNat : ℤ) < 256 := by omega
        exact Int.emod_eq_of_lt (Int.natCast_nonneg _) hlt
    | w16 | w32 | w64 => cases hchar

/-- **The code of a digit begins with this digit** for five alone, whose code
is 53. -/
theorem head_toDigits_iff {n : ℕ} (hle : 48 ≤ n) (hge : n ≤ 57) :
    (Nat.toDigits 10 n).head?.map Char.toNat = some n ↔ n = 53 := by
  interval_cases n <;> decide

/-- **A character is the value it was written for** only if this is the code of
five. -/
theorem extract_eq_iff (hchar : t.isChar = true) (x : t.Value) :
    t.extract old (stdToString x.val) = x.val ↔ x.val = 53 := by
  obtain ⟨d, ds, hdigits, hdigit, heq⟩ := stdToString_cases x.val
  have hd : d.isDigit = true := hdigit d List.mem_cons_self
  obtain ⟨hle, hge⟩ := Char.isDigit_iff_toNat.mp hd
  rw [heq]
  unfold extract
  by_cases hneg : x.val < 0
  · rw [if_pos hneg, List.dropWhile_cons_of_neg (by decide)]
    dsimp only
    rw [if_pos hchar, ofChar_of_lt hchar (by decide)]
    refine iff_of_false (fun h => ?_) (by omega)
    rw [← h] at hneg
    exact absurd hneg (by decide)
  · rw [if_neg hneg, List.dropWhile_cons_of_neg (by simp [isSpace_of_isDigit hd])]
    dsimp only
    rw [if_pos hchar, ofChar_of_lt hchar (hge.trans_lt (by decide))]
    have hhead : (Nat.toDigits 10 x.val.natAbs).head?.map Char.toNat = some d.toNat := by
      rw [hdigits]
      rfl
    constructor
    · intro h
      have hn : x.val.natAbs = d.toNat := by omega
      rw [← hn] at hhead hle hge
      have h53 := (head_toDigits_iff hle hge).mp hhead
      omega
    · intro h
      rw [h] at hhead ⊢
      exact congrArg Int.ofNat (Option.some.inj hhead).symm

end IntType

namespace TextType

/-- **An integer that was written is read** exactly if it can be. -/
theorem ofText_int_iff {t : IntType} (x data : t.Value) :
    (int t).ofText ((int t).toText x) data = x ↔ (int t).Keeps x := by
  have hval : (int t).ofText ((int t).toText x) data = x
      ↔ t.extract data.val (stdToString x.val) = x.val := Subtype.ext_iff
  rw [hval]
  cases hchar : t.isChar with
  | false =>
    refine iff_of_true (IntType.extract_stdToString hchar x) fun h => ?_
    rw [hchar] at h
    cases h
  | true =>
    rw [IntType.extract_eq_iff hchar]
    exact ⟨fun h _ => h, fun h => h hchar⟩

end TextType

/-! ## Vectors -/

section Splitting

variable {α : Type*} [DecidableEq α] {a : α}

/-- What is between two separators has none. -/
theorem not_mem_of_mem_splitOn {xs l : List α} (hl : l ∈ xs.splitOn a) : a ∉ l := by
  induction xs generalizing l with
  | nil =>
    rw [List.splitOn_nil, List.mem_singleton] at hl
    rw [hl]
    exact List.not_mem_nil
  | cons x xs ih =>
    rw [List.splitOn_cons_eq_if_modifyHead] at hl
    split at hl
    · rcases List.mem_cons.mp hl with rfl | hl
      · exact List.not_mem_nil
      · exact ih hl
    · next hne =>
      obtain ⟨l', ls, hls⟩ := List.exists_cons_of_ne_nil (List.splitOn_ne_nil a xs)
      rw [hls] at hl ih
      rcases List.mem_cons.mp hl with rfl | hl
      · refine List.not_mem_cons_of_ne_of_not_mem (fun h => hne ?_) (ih List.mem_cons_self)
        rw [h, beq_self_eq_true]
      · exact ih (List.mem_cons_of_mem _ hl)

/-- What was put together does not become less by taking it apart. -/
theorem length_le_length_splitOn_intercalate (ls : List (List α)) :
    ls.length ≤ (([a].intercalate ls).splitOn a).length := by
  induction ls with
  | nil => exact Nat.zero_le _
  | cons l ls ih =>
    cases ls with
    | nil => exact List.length_pos_iff.mpr (List.splitOn_ne_nil a _)
    | cons l' ls =>
      have happend : [a].intercalate (l :: l' :: ls) = l ++ a :: [a].intercalate (l' :: ls) := by
        simp [List.intercalate]
      have hpos := List.length_pos_iff.mpr (List.splitOn_ne_nil a l)
      rw [happend, List.splitOn_append_cons_self, List.length_append]
      simp only [List.length_cons] at ih ⊢
      omega

end Splitting

namespace TextType

variable {s : TextType} {uninit : (t : IntType) → t.Value} {x data : List s.Value}

/-- What is written for the elements, each with a comma behind it. -/
theorem foldl_toText (x : List s.Value) (str : Text) :
    x.foldl (fun str v => str ++ s.toText v ++ [',']) str
      = str ++ x.flatMap fun v => s.toText v ++ [','] := by
  induction x generalizing str with
  | nil => exact (List.append_nil str).symm
  | cons v x ih => rw [List.foldl_cons, ih, List.flatMap_cons, List.append_assoc, List.append_assoc,
      List.append_assoc]

/-- Without the last of them, the commas are between the elements. -/
theorem dropLast_flatMap_toText (x : List s.Value) :
    (x.flatMap fun v => s.toText v ++ [',']).dropLast = [','].intercalate (x.map s.toText) := by
  induction x with
  | nil => rfl
  | cons v x ih =>
    cases x with
    | nil => simp [List.intercalate]
    | cons v' x =>
      rw [List.flatMap_cons, List.dropLast_append_of_ne_nil (by simp), ih]
      simp [List.intercalate]

/-- **What is written for a vector.** -/
theorem vectorToText_eq (x : List s.Value) :
    s.vectorToText x = '[' :: [','].intercalate (x.map s.toText) ++ [']'] := by
  unfold vectorToText
  dsimp only
  rw [foldl_toText, List.nil_append, ← List.dropLast_eq_take, dropLast_flatMap_toText]

/-- **What is read** between brackets. -/
theorem vectorOfText_brackets (inner : Text) (data : List s.Value) :
    s.vectorOfText uninit ('[' :: inner ++ [']']) data
      = some (data ++ (inner.splitOn ',').map fun d => s.ofText d (s.fresh uninit)) := by
  unfold vectorOfText
  simp

/-- What is written for an element that keeps has no comma. -/
theorem comma_not_mem_toText {v : s.Value} (h : s.Keeps v) : ',' ∉ s.toText v := by
  cases s with
  | string => exact h
  | int t => exact comma_not_mem_stdToString _

/-- **An element that keeps is read** between commas. -/
theorem ofText_toText {v : s.Value} (h : s.Keeps v) (old : s.Value) :
    s.ofText (s.toText v) old = v := by
  cases s with
  | string => rfl
  | int t => exact (ofText_int_iff v old).mpr h

/-- **Elements that were read** between commas keep. -/
theorem keeps_of_read (hx : ((([','].intercalate (x.map s.toText)).splitOn ',').map
    fun d => s.ofText d (s.fresh uninit)) = x) (hne : x ≠ []) : ∀ v ∈ x, s.Keeps v := by
  intro v hv
  cases s with
  | string =>
    rw [← hx] at hv
    obtain ⟨d, hd, rfl⟩ := List.mem_map.mp hv
    exact not_mem_of_mem_splitOn hd
  | int t =>
    have hcomma : ∀ l ∈ x.map (int t).toText, ',' ∉ l := by
      intro l hl
      obtain ⟨v, _, rfl⟩ := List.mem_map.mp hl
      exact comma_not_mem_stdToString _
    rw [List.splitOn_intercalate ',' hcomma (fun h => hne (List.map_eq_nil_iff.mp h)),
      List.map_map] at hx
    exact (ofText_int_iff v _).mp (List.map_inj_left.mp (hx.trans (List.map_id x).symm) v hv)

/-- **A vector that was written is read** exactly if it can be. -/
theorem vectorOfText_iff : s.vectorOfText uninit (s.vectorToText x) data = some x
    ↔ data = [] ∧ x ≠ [] ∧ ∀ v ∈ x, s.Keeps v := by
  rw [vectorToText_eq, vectorOfText_brackets, Option.some_inj]
  constructor
  · intro h
    have hlength := congrArg List.length h
    rw [List.length_append, List.length_map] at hlength
    have hle := length_le_length_splitOn_intercalate (a := ',') (x.map s.toText)
    have hpos := List.length_pos_iff.mpr
      (List.splitOn_ne_nil ',' ([','].intercalate (x.map s.toText)))
    rw [List.length_map] at hle
    have hdata : data = [] := List.length_eq_zero_iff.mp (by omega)
    have hne : x ≠ [] := List.length_pos_iff.mp (by omega)
    rw [hdata, List.nil_append] at h
    exact ⟨hdata, hne, keeps_of_read h hne⟩
  · rintro ⟨rfl, hne, hkeeps⟩
    have hcomma : ∀ l ∈ x.map s.toText, ',' ∉ l := by
      intro l hl
      obtain ⟨v, hv, rfl⟩ := List.mem_map.mp hl
      exact comma_not_mem_toText (hkeeps v hv)
    rw [List.splitOn_intercalate ',' hcomma (fun h => hne (List.map_eq_nil_iff.mp h)),
      List.nil_append, List.map_map]
    exact (List.map_congr_left fun v hv => ofText_toText (hkeeps v hv) _).trans (List.map_id x)

end TextType

namespace LeafTextType

/-- **A leaf holds what was written** after this is read, exactly if it can be
read: a string, and an integer of more than eight bits; the integer of eight bits
that is the code of its first digit; and, into one without elements, a vector with
elements that can be read, without a comma. -/
theorem leaf_iff (t : LeafTextType) (x data : t.Value)
    (uninit : (t : IntType) → t.Value) :
    t.ofText uninit (t.toText x) data = some x ↔ t.Keeps x data := by
  cases t with
  | scalar s =>
    have hscalar : (scalar s).ofText uninit ((scalar s).toText x) data = some x
        ↔ s.ofText (s.toText x) data = x := Option.some_inj
    rw [hscalar]
    cases s with
    | string => exact iff_of_true rfl trivial
    | int t => exact TextType.ofText_int_iff x data
  | vector s => exact TextType.vectorOfText_iff

/-- A vector of one element that is written and read again has two. -/
theorem not_leaf_twice : ¬∀ (t : LeafTextType) (x data : t.Value)
    (uninit : (t : IntType) → t.Value), t.ofText uninit (t.toText x) data = some x := by
  intro h
  have htwice := h (.vector .string) [['a']] [['a']] fun t =>
    ⟨0, t.minValue_le_zero, t.zero_le_maxValue⟩
  exact absurd htwice (by decide)

end LeafTextType
