import CoinData.ShiftRegister
import Mathlib.Tactic.NormNum.Prime

/-!
# The checksum

`calculate_crc32` goes through a buffer byte by byte and takes eight shifts of
a register at once from a table of 256 words. The register is started by the
caller, who also does whatever is to be done with it at the end.

What it computes is the remainder of a polynomial of degree 32, the one that
the source names. So it is told here what the checksum is good for: a buffer
followed by its checksum, the low byte first, has the checksum `0`, and with
no other four bytes; damage within 32 bits is noticed, and so are two flipped
bits, however far apart they are in a buffer of less than 512 MiB. None of it
depends on what the register was started with.

`ul_crc32_exclude_offset` reads the bytes of a window as zeros, such as those
where the checksum itself is kept. Where the window ends is a `size_t`, so a
window that is asked to reach too far is empty.
-/

open Polynomial ShiftRegister

/-- `crc32_tab`. -/
def crc32Tab : List (BitVec 32) := [
  0x00000000, 0x77073096, 0xee0e612c, 0x990951ba, 0x076dc419, 0x706af48f,
  0xe963a535, 0x9e6495a3, 0x0edb8832, 0x79dcb8a4, 0xe0d5e91e, 0x97d2d988,
  0x09b64c2b, 0x7eb17cbd, 0xe7b82d07, 0x90bf1d91, 0x1db71064, 0x6ab020f2,
  0xf3b97148, 0x84be41de, 0x1adad47d, 0x6ddde4eb, 0xf4d4b551, 0x83d385c7,
  0x136c9856, 0x646ba8c0, 0xfd62f97a, 0x8a65c9ec, 0x14015c4f, 0x63066cd9,
  0xfa0f3d63, 0x8d080df5, 0x3b6e20c8, 0x4c69105e, 0xd56041e4, 0xa2677172,
  0x3c03e4d1, 0x4b04d447, 0xd20d85fd, 0xa50ab56b, 0x35b5a8fa, 0x42b2986c,
  0xdbbbc9d6, 0xacbcf940, 0x32d86ce3, 0x45df5c75, 0xdcd60dcf, 0xabd13d59,
  0x26d930ac, 0x51de003a, 0xc8d75180, 0xbfd06116, 0x21b4f4b5, 0x56b3c423,
  0xcfba9599, 0xb8bda50f, 0x2802b89e, 0x5f058808, 0xc60cd9b2, 0xb10be924,
  0x2f6f7c87, 0x58684c11, 0xc1611dab, 0xb6662d3d, 0x76dc4190, 0x01db7106,
  0x98d220bc, 0xefd5102a, 0x71b18589, 0x06b6b51f, 0x9fbfe4a5, 0xe8b8d433,
  0x7807c9a2, 0x0f00f934, 0x9609a88e, 0xe10e9818, 0x7f6a0dbb, 0x086d3d2d,
  0x91646c97, 0xe6635c01, 0x6b6b51f4, 0x1c6c6162, 0x856530d8, 0xf262004e,
  0x6c0695ed, 0x1b01a57b, 0x8208f4c1, 0xf50fc457, 0x65b0d9c6, 0x12b7e950,
  0x8bbeb8ea, 0xfcb9887c, 0x62dd1ddf, 0x15da2d49, 0x8cd37cf3, 0xfbd44c65,
  0x4db26158, 0x3ab551ce, 0xa3bc0074, 0xd4bb30e2, 0x4adfa541, 0x3dd895d7,
  0xa4d1c46d, 0xd3d6f4fb, 0x4369e96a, 0x346ed9fc, 0xad678846, 0xda60b8d0,
  0x44042d73, 0x33031de5, 0xaa0a4c5f, 0xdd0d7cc9, 0x5005713c, 0x270241aa,
  0xbe0b1010, 0xc90c2086, 0x5768b525, 0x206f85b3, 0xb966d409, 0xce61e49f,
  0x5edef90e, 0x29d9c998, 0xb0d09822, 0xc7d7a8b4, 0x59b33d17, 0x2eb40d81,
  0xb7bd5c3b, 0xc0ba6cad, 0xedb88320, 0x9abfb3b6, 0x03b6e20c, 0x74b1d29a,
  0xead54739, 0x9dd277af, 0x04db2615, 0x73dc1683, 0xe3630b12, 0x94643b84,
  0x0d6d6a3e, 0x7a6a5aa8, 0xe40ecf0b, 0x9309ff9d, 0x0a00ae27, 0x7d079eb1,
  0xf00f9344, 0x8708a3d2, 0x1e01f268, 0x6906c2fe, 0xf762575d, 0x806567cb,
  0x196c3671, 0x6e6b06e7, 0xfed41b76, 0x89d32be0, 0x10da7a5a, 0x67dd4acc,
  0xf9b9df6f, 0x8ebeeff9, 0x17b7be43, 0x60b08ed5, 0xd6d6a3e8, 0xa1d1937e,
  0x38d8c2c4, 0x4fdff252, 0xd1bb67f1, 0xa6bc5767, 0x3fb506dd, 0x48b2364b,
  0xd80d2bda, 0xaf0a1b4c, 0x36034af6, 0x41047a60, 0xdf60efc3, 0xa867df55,
  0x316e8eef, 0x4669be79, 0xcb61b38c, 0xbc66831a, 0x256fd2a0, 0x5268e236,
  0xcc0c7795, 0xbb0b4703, 0x220216b9, 0x5505262f, 0xc5ba3bbe, 0xb2bd0b28,
  0x2bb45a92, 0x5cb36a04, 0xc2d7ffa7, 0xb5d0cf31, 0x2cd99e8b, 0x5bdeae1d,
  0x9b64c2b0, 0xec63f226, 0x756aa39c, 0x026d930a, 0x9c0906a9, 0xeb0e363f,
  0x72076785, 0x05005713, 0x95bf4a82, 0xe2b87a14, 0x7bb12bae, 0x0cb61b38,
  0x92d28e9b, 0xe5d5be0d, 0x7cdcefb7, 0x0bdbdf21, 0x86d3d2d4, 0xf1d4e242,
  0x68ddb3f8, 0x1fda836e, 0x81be16cd, 0xf6b9265b, 0x6fb077e1, 0x18b74777,
  0x88085ae6, 0xff0f6a70, 0x66063bca, 0x11010b5c, 0x8f659eff, 0xf862ae69,
  0x616bffd3, 0x166ccf45, 0xa00ae278, 0xd70dd2ee, 0x4e048354, 0x3903b3c2,
  0xa7672661, 0xd06016f7, 0x4969474d, 0x3e6e77db, 0xaed16a4a, 0xd9d65adc,
  0x40df0b66, 0x37d83bf0, 0xa9bcae53, 0xdebb9ec5, 0x47b2cf7f, 0x30b5ffe9,
  0xbdbdf21c, 0xcabac28a, 0x53b39330, 0x24b4a3a6, 0xbad03605, 0xcdd70693,
  0x54de5729, 0x23d967bf, 0xb3667a2e, 0xc4614ab8, 0x5d681b02, 0x2a6f2b94,
  0xb40bbe37, 0xc30c8ea1, 0x5a05df1b, 0x2d02ef8d]

/-- `crc32_add_char`. -/
def crc32AddChar (crc : BitVec 32) (c : BitVec 8) : BitVec 32 :=
  crc32Tab.getD ((crc ^^^ c.setWidth 32) &&& 0xff).toNat 0 ^^^ (crc >>> 8)

/-- **`calculate_crc32`**, of the bytes that are left. -/
def calculateCrc32 (crc : BitVec 32) : List (BitVec 8) → BitVec 32
  | [] => crc
  | c :: p => calculateCrc32 (crc32AddChar crc c) p

/-- The loop of `ul_crc32_exclude_offset`, at the index `i`. -/
def excludeFrom (excludeOff excludeLen : BitVec 64) (i : ℕ) (crc : BitVec 32) :
    List (BitVec 8) → BitVec 32
  | [] => crc
  | x :: p =>
    let x := if excludeOff.toNat ≤ i ∧ i < (excludeOff + excludeLen).toNat then 0 else x
    excludeFrom excludeOff excludeLen (i + 1) (crc32AddChar crc x) p

/-- **`ul_crc32_exclude_offset`**. -/
def ulCrc32ExcludeOffset (seed : BitVec 32) (buf : List (BitVec 8))
    (excludeOff excludeLen : BitVec 64) : BitVec 32 :=
  excludeFrom excludeOff excludeLen 0 seed buf

namespace Crc32

/-- The feedback terms: a bit is the coefficient of `X ^ 31` in the lowest
place, and that of `X ^ 0` in the highest. -/
def feedback : BitVec 32 := 0xedb88320

/-- **The polynomial of the checksum.** -/
noncomputable def polynomial : (ZMod 2)[X] :=
  X ^ 32 + X ^ 26 + X ^ 23 + X ^ 22 + X ^ 16 + X ^ 12 + X ^ 11 + X ^ 10 + X ^ 8 + X ^ 7 + X ^ 5
    + X ^ 4 + X ^ 2 + X + 1

/-- The bits of a buffer, in the order in which they are sent: of each byte the
low one first. -/
def bits (buf : List (BitVec 8)) : List Bool := buf.flatMap unpack

@[simp] theorem bits_append (buf buf' : List (BitVec 8)) :
    bits (buf ++ buf') = bits buf ++ bits buf' := List.flatMap_append

@[simp] theorem length_bits (buf : List (BitVec 8)) : (bits buf).length = 8 * buf.length := by
  induction buf with
  | nil => rfl
  | cons c p ih =>
    rw [bits, List.flatMap_cons, List.length_append, length_unpack, List.length_cons]
    change 8 + (bits p).length = _
    rw [ih, Nat.mul_add, Nat.add_comm]

theorem bits_injective : Function.Injective bits := by
  intro buf
  induction buf with
  | nil =>
    intro buf' h
    have hlen := congrArg List.length h
    rw [length_bits, length_bits, List.length_nil] at hlen
    exact (List.length_eq_zero_iff.mp (by omega)).symm
  | cons c p ih =>
    intro buf' h
    obtain _ | ⟨c', p'⟩ := buf'
    · have hlen := congrArg List.length h
      rw [length_bits, length_bits, List.length_nil, List.length_cons] at hlen
      omega
    · have h : unpack c ++ bits p = unpack c' ++ bits p' := h
      obtain ⟨hc, hp⟩ := List.append_inj h (by simp)
      rw [unpack_injective hc, ih hp]

/-- **The table holds the registers after eight shifts.** -/
theorem crc32Tab_eq (i : Fin 256) :
    crc32Tab.getD i 0 = shifts feedback 8 (BitVec.ofNat 32 i) := by
  revert i
  decide +kernel

/-- **A byte looked up is a byte fed bit by bit.** -/
theorem crc32AddChar_eq (crc : BitVec 32) (c : BitVec 8) :
    crc32AddChar crc c = feed feedback crc (unpack c) := by
  have hlow : ((crc ^^^ c.setWidth 32) &&& 0xff).toNat < 256 := by
    rw [BitVec.toNat_and]
    exact Nat.and_lt_two_pow _ (n := 8) (by decide)
  have htab := crc32Tab_eq ⟨_, hlow⟩
  have hhigh : (c.setWidth 32) >>> 8 = 0#32 := by
    refine BitVec.eq_of_getLsbD_eq fun i _ => ?_
    rw [BitVec.getLsbD_ushiftRight, BitVec.getLsbD_setWidth,
      BitVec.getLsbD_of_ge c (8 + i) (by omega)]
    simp
  rw [feed_eq_shifts feedback (by simp), length_unpack, pack_unpack, shifts_eq_lookup, crc32AddChar,
    BitVec.ushiftRight_xor_distrib, hhigh, BitVec.xor_zero]
  refine congrArg (· ^^^ crc >>> 8) (htab.trans ?_)
  rw [BitVec.ofNat_toNat, BitVec.setWidth_eq]
  rfl

theorem calculateCrc32_eq (seed : BitVec 32) (buf : List (BitVec 8)) :
    calculateCrc32 seed buf = feed feedback seed (bits buf) := by
  induction buf generalizing seed with
  | nil => rfl
  | cons c p ih =>
    rw [calculateCrc32, ih, crc32AddChar_eq, ← feed_append]
    rfl

/-! ## The polynomial -/

theorem generator_feedback : generator feedback = polynomial := by
  have hcoeff (k : ℕ) : (if feedback.getMsbD k then (X ^ k : (ZMod 2)[X]) else 0)
      = if k ∈ [0, 1, 2, 4, 5, 7, 8, 10, 11, 12, 16, 22, 23, 26] then X ^ k else 0 := by
    refine if_congr ?_ rfl rfl
    rcases Nat.lt_or_ge k 32 with hk | hk
    · revert k
      decide
    · rw [BitVec.getMsbD_of_ge _ _ hk]
      simp only [Bool.false_eq_true, List.mem_cons, List.not_mem_nil, or_false, false_iff]
      omega
  rw [generator, toPoly, Finset.sum_congr rfl fun k _ => hcoeff k]
  simp [Finset.sum_range_succ, polynomial]
  ring

/-- **The checksum is the remainder** that the polynomial leaves of the seed
followed by the buffer and 32 zeros. -/
theorem toPoly_calculateCrc32 (seed : BitVec 32) (buf : List (BitVec 8)) :
    toPoly (calculateCrc32 seed buf)
      = (toPoly seed * X ^ (8 * buf.length) + ofBits (bits buf) * X ^ 32) %ₘ polynomial := by
  rw [calculateCrc32_eq, toPoly_feed (by decide), length_bits, generator_feedback]

/-! ## What it notices -/

theorem feedback_top : feedback.getLsbD (32 - 1) = true := by decide

/-- **A buffer followed by four bytes has the checksum `0` exactly if they are
its checksum**, the low byte first. -/
theorem calculateCrc32_append_eq_zero_iff (seed : BitVec 32) (buf : List (BitVec 8))
    (t₀ t₁ t₂ t₃ : BitVec 8) :
    calculateCrc32 seed (buf ++ [t₀, t₁, t₂, t₃]) = 0
      ↔ t₃ ++ t₂ ++ t₁ ++ t₀ = calculateCrc32 seed buf := by
  have htrailer : bits [t₀, t₁, t₂, t₃] = unpack (t₃ ++ t₂ ++ t₁ ++ t₀) := by
    rw [unpack_append, unpack_append, unpack_append]
    simp [bits]
  rw [calculateCrc32_eq, calculateCrc32_eq, bits_append, feed_append, htrailer]
  exact feed_unpack_eq_zero_iff feedback_top _ _

/-- **Damage within 32 bits is noticed.** -/
theorem calculateCrc32_ne_of_burst (seed : BitVec 32) {buf buf' : List (BitVec 8)}
    {before after burst burst' : List Bool} (hbuf : bits buf = before ++ burst ++ after)
    (hbuf' : bits buf' = before ++ burst' ++ after) (hlen : burst.length = burst'.length)
    (hburst : burst.length ≤ 32) (hne : buf ≠ buf') :
    calculateCrc32 seed buf ≠ calculateCrc32 seed buf' := by
  have hdiffer : burst ≠ burst' := by
    rintro rfl
    exact hne (bits_injective (hbuf.trans hbuf'.symm))
  rw [calculateCrc32_eq, calculateCrc32_eq, hbuf, hbuf']
  exact feed_window_ne feedback_top seed before after hlen hburst hdiffer

theorem calculateCrc32_ne_of_burst_two :
    calculateCrc32 0xffffffff [0x31#8, 0x32#8] ≠ calculateCrc32 0xffffffff [0x31#8, 0xcd#8] :=
  calculateCrc32_ne_of_burst _
    (show bits [0x31#8, 0x32#8] = unpack 0x31#8 ++ unpack 0x32#8 ++ [] by decide)
    (show bits [0x31#8, 0xcd#8] = unpack 0x31#8 ++ unpack 0xcd#8 ++ [] by decide)
    (by decide) (by decide) (by decide)

/-! ## Two flipped bits -/

/-- The `n` digits of a number, the highest one first. -/
def digits (n k : ℕ) : List Bool := (List.range n).reverse.map k.testBit

/-- The power `2 ^ 16 + 1` of `X`. -/
theorem power_root :
    power feedback (shift feedback (one 32)) (digits 17 65537) = 0xac7a15a7 := by
  have hhigh : power feedback (shift feedback (one 32)) (digits 9 256) = 0xed627dae := by
    decide +kernel
  have hdigits : digits 17 65537 = digits 9 256 ++ digits 8 1 := by decide
  rw [hdigits, power, List.foldl_append, ← power, hhigh]
  decide +kernel

/-- **`X` has the largest order there is.** -/
theorem orderOf_root : orderOf (AdjoinRoot.root (generator feedback)) = 2 ^ 32 - 1 := by
  have hw : 0 < 32 := by decide
  have hroot : AdjoinRoot.root (generator feedback) ^ 65537 = residue feedback 0xac7a15a7 := by
    rw [root_eq_residue hw, ← power_root, residue_power hw]
    rfl
  -- a power in two steps, the second one to the exponent 257
  have hpow {a v : BitVec 32} (ds : List Bool) (hv : power feedback a ds = v) :
      residue feedback a ^ (ofDigits ds * 257) = 1
        ↔ power feedback v (digits 9 257) = one 32 := by
    rw [pow_mul, ← residue_power hw, hv, ← residue_pow_eq_one_iff hw]
    rfl
  have hmul {v : BitVec 32} (ds : List Bool) (hv : power feedback 0xac7a15a7 ds = v) {n : ℕ}
      (hn : n = 65537 * (ofDigits ds * 257)) :
      AdjoinRoot.root (generator feedback) ^ n = 1
        ↔ power feedback v (digits 9 257) = one 32 := by
    rw [hn, pow_mul, hroot, hpow ds hv]
  have h255 : power feedback 0xac7a15a7 (digits 8 255) = 0x351c22c9 := by decide +kernel
  have h85 : power feedback 0xac7a15a7 (digits 8 85) = 0x1bd34bc3 := by decide +kernel
  have h51 : power feedback 0xac7a15a7 (digits 8 51) = 0x41b3685c := by decide +kernel
  have h15 : power feedback 0xac7a15a7 (digits 8 15) = 0x28545337 := by decide +kernel
  have hx255 : power feedback (shift feedback (one 32)) (digits 8 255) = 0x01b5fd1d := by
    decide +kernel
  refine orderOf_eq_of_pow_and_pow_div_prime (by decide) ?_ fun p hp hdvd hone => ?_
  · exact (hmul _ h255 (by decide)).mpr (by decide +kernel)
  · have hfactors : 2 ^ 32 - 1 = 3 * 5 * 17 * 257 * 65537 := by decide
    rw [hfactors, hp.dvd_mul, hp.dvd_mul, hp.dvd_mul, hp.dvd_mul] at hdvd
    rcases hdvd with (((h | h) | h) | h) | h
    · rw [(Nat.prime_dvd_prime_iff_eq hp (by norm_num)).mp h] at hone
      exact absurd ((hmul _ h85 (by decide)).mp hone) (by decide +kernel)
    · rw [(Nat.prime_dvd_prime_iff_eq hp (by norm_num)).mp h] at hone
      exact absurd ((hmul _ h51 (by decide)).mp hone) (by decide +kernel)
    · rw [(Nat.prime_dvd_prime_iff_eq hp (by norm_num)).mp h] at hone
      exact absurd ((hmul _ h15 (by decide)).mp hone) (by decide +kernel)
    · rw [(Nat.prime_dvd_prime_iff_eq hp (by norm_num)).mp h] at hone
      have h255' := (residue_pow_eq_one_iff hw feedback 0xac7a15a7 (digits 8 255)).mp (by
        rw [← hroot, ← pow_mul]
        exact hone)
      rw [h255] at h255'
      exact absurd h255' (by decide +kernel)
    · rw [(Nat.prime_dvd_prime_iff_eq hp (by norm_num)).mp h, root_eq_residue hw] at hone
      exact absurd ((hpow _ hx255).mp hone) (by decide +kernel)

/-- **Two flipped bits are noticed**, if the buffer is shorter than 512 MiB. -/
theorem calculateCrc32_ne_of_flip (seed : BitVec 32) {buf buf' : List (BitVec 8)}
    {before between after : List Bool} {a b : Bool}
    (hbuf : bits buf = before ++ a :: (between ++ b :: after))
    (hbuf' : bits buf' = before ++ (!a) :: (between ++ (!b) :: after))
    (hlen : buf.length < 2 ^ 29) : calculateCrc32 seed buf ≠ calculateCrc32 seed buf' := by
  have hbetween : between.length + 1 < 2 ^ 32 - 1 := by
    have h := congrArg List.length hbuf
    rw [length_bits] at h
    simp only [List.length_append, List.length_cons] at h
    omega
  rw [calculateCrc32_eq, calculateCrc32_eq, hbuf, hbuf']
  exact feed_flip_ne (by decide) orderOf_root seed before between after a b hbetween

theorem calculateCrc32_ne_of_flip_two :
    calculateCrc32 0 [0x31#8, 0x32#8] ≠ calculateCrc32 0 [0x30#8, 0xb2#8] :=
  calculateCrc32_ne_of_flip _
    (show bits [0x31#8, 0x32#8] = [] ++ true ::
      ([false, false, false, true, true, false, false, false, true, false, false, true, true,
        false] ++ false :: []) by decide)
    (show bits [0x30#8, 0xb2#8] = [] ++ (!true) ::
      ([false, false, false, true, true, false, false, false, true, false, false, true, true,
        false] ++ (!false) :: []) by decide)
    (by decide)

/-! ## A window that is left out -/

/-- **The window** of a buffer: it is empty where its end is no `size_t`. -/
def Excluded (excludeOff excludeLen : BitVec 64) (i : ℕ) : Prop :=
  excludeOff.toNat + excludeLen.toNat < 2 ^ 64
    ∧ excludeOff.toNat ≤ i ∧ i < excludeOff.toNat + excludeLen.toNat

instance (excludeOff excludeLen : BitVec 64) (i : ℕ) :
    Decidable (Excluded excludeOff excludeLen i) :=
  inferInstanceAs (Decidable (_ ∧ _))

/-- A buffer with zeros in the window. -/
def blank (excludeOff excludeLen : BitVec 64) (buf : List (BitVec 8)) : List (BitVec 8) :=
  buf.mapIdx fun i x => if Excluded excludeOff excludeLen i then 0 else x

/-- The comparison that the loop makes, with an end that may wrap around. -/
theorem excluded_iff (excludeOff excludeLen : BitVec 64) (i : ℕ) :
    excludeOff.toNat ≤ i ∧ i < (excludeOff + excludeLen).toNat
      ↔ Excluded excludeOff excludeLen i := by
  have hoff := excludeOff.isLt
  have hlen := excludeLen.isLt
  rw [BitVec.toNat_add, Excluded]
  rcases Nat.lt_or_ge (excludeOff.toNat + excludeLen.toNat) (2 ^ 64) with h | h
  · rw [Nat.mod_eq_of_lt h]
    omega
  · rw [Nat.mod_eq_sub_mod h, Nat.mod_eq_of_lt (by omega)]
    omega

theorem excludeFrom_eq (excludeOff excludeLen : BitVec 64) (i : ℕ) (crc : BitVec 32)
    (buf : List (BitVec 8)) :
    excludeFrom excludeOff excludeLen i crc buf
      = calculateCrc32 crc
          (buf.mapIdx fun j x => if Excluded excludeOff excludeLen (i + j) then 0 else x) := by
  induction buf generalizing i crc with
  | nil => rfl
  | cons x p ih =>
    rw [excludeFrom, ih, List.mapIdx_cons, calculateCrc32]
    simp only [excluded_iff, Nat.add_zero, Nat.add_right_comm i 1, Nat.add_assoc i _ 1]

/-- **The checksum without a window is that of the buffer with zeros there.** -/
theorem ulCrc32ExcludeOffset_eq (seed : BitVec 32) (buf : List (BitVec 8))
    (excludeOff excludeLen : BitVec 64) :
    ulCrc32ExcludeOffset seed buf excludeOff excludeLen
      = calculateCrc32 seed (blank excludeOff excludeLen buf) := by
  rw [ulCrc32ExcludeOffset, excludeFrom_eq]
  simp only [Nat.zero_add]
  rfl

/-- **The bytes of the window do not count, and if its end is no `size_t` they
all do.** -/
theorem ulCrc32ExcludeOffset_window (seed : BitVec 32) (buf : List (BitVec 8))
    (excludeOff excludeLen : BitVec 64) :
    (excludeOff.toNat + excludeLen.toNat < 2 ^ 64 → ∀ buf' : List (BitVec 8),
      buf'.length = buf.length →
      (∀ i, ¬ (excludeOff.toNat ≤ i ∧ i < excludeOff.toNat + excludeLen.toNat) →
        buf'[i]? = buf[i]?) →
      ulCrc32ExcludeOffset seed buf' excludeOff excludeLen
        = ulCrc32ExcludeOffset seed buf excludeOff excludeLen)
    ∧ (2 ^ 64 ≤ excludeOff.toNat + excludeLen.toNat →
      ulCrc32ExcludeOffset seed buf excludeOff excludeLen = calculateCrc32 seed buf) := by
  constructor
  · intro hend buf' hlen hagree
    rw [ulCrc32ExcludeOffset_eq, ulCrc32ExcludeOffset_eq]
    refine congrArg _ (List.ext_getElem? fun i => ?_)
    rw [blank, blank, List.getElem?_mapIdx, List.getElem?_mapIdx]
    by_cases hi : Excluded excludeOff excludeLen i
    · simp only [if_pos hi]
      by_cases hbuf : i < buf.length
      · rw [List.getElem?_eq_getElem hbuf, List.getElem?_eq_getElem (hlen ▸ hbuf)]
        rfl
      · rw [List.getElem?_eq_none (by omega), List.getElem?_eq_none (by omega)]
    · rw [hagree i fun hwindow => hi ⟨hend, hwindow⟩]
  · intro hend
    rw [ulCrc32ExcludeOffset_eq]
    refine congrArg _ (List.ext_getElem? fun i => ?_)
    rw [blank, List.getElem?_mapIdx]
    simp only [if_neg fun h : Excluded excludeOff excludeLen i => by
      have := h.1
      omega]
    exact Option.map_id'

end Crc32
