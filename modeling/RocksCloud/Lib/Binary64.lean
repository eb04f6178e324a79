import Mathlib

/-!
# Rounding to binary64

A finite `double` is a rational `m * 2 ^ e` with an integer significand `|m| < 2 ^ 53` and an
exponent `e ≥ -1074`. IEEE 754 arithmetic rounds the exact result of an operation to the
nearest such value, a tie to the one with the even significand (`roundBinary64`): the last
significand bit of a `double` near `q` has the weight `2 ^ ulpExponent q`, and `q` is rounded
to a whole number of that weight (`roundHalfEven`). Overflow to an infinity is left out.

A value that already is a `double` is kept (`roundBinary64_eq_self`), in particular a natural
number below `2 ^ 53` (`roundBinary64_natCast`), and rounding keeps the sign
(`roundBinary64_nonneg`).
-/

set_option autoImplicit false

namespace RocksCloud.Lib

/-- Rounding to the nearest integer, a tie to the even one. -/
def roundHalfEven (q : ℚ) : ℤ :=
  if q - ⌊q⌋ < 1 / 2 then ⌊q⌋
  else if 1 / 2 < q - ⌊q⌋ then ⌊q⌋ + 1
  else if ⌊q⌋ % 2 = 0 then ⌊q⌋ else ⌊q⌋ + 1

/-- The exponent of the last significand bit of a `double` near `q`: 52 bits below the leading
one, and not below the exponent `-1074` of the subnormals. -/
def ulpExponent (q : ℚ) : ℤ := max (Int.log 2 |q| - 52) (-1074)

/-- `q` rounded to the nearest `double`, a tie to the even significand. -/
def roundBinary64 (q : ℚ) : ℚ :=
  roundHalfEven (q / 2 ^ ulpExponent q) * 2 ^ ulpExponent q

@[simp] theorem roundBinary64_zero : roundBinary64 0 = 0 := by
  simp [roundBinary64, roundHalfEven]

theorem roundHalfEven_intCast (n : ℤ) : roundHalfEven n = n := by
  simp [roundHalfEven]

theorem roundHalfEven_nonneg {q : ℚ} (hq : 0 ≤ q) : 0 ≤ roundHalfEven q := by
  have hfloor : 0 ≤ ⌊q⌋ := Int.floor_nonneg.mpr hq
  unfold roundHalfEven
  split_ifs <;> omega

theorem roundBinary64_nonneg {q : ℚ} (hq : 0 ≤ q) : 0 ≤ roundBinary64 q := by
  have hpow : (0 : ℚ) < 2 ^ ulpExponent q := zpow_pos (by norm_num) _
  have hround : 0 ≤ roundHalfEven (q / 2 ^ ulpExponent q) :=
    roundHalfEven_nonneg (div_nonneg hq hpow.le)
  exact mul_nonneg (by exact_mod_cast hround) hpow.le

/-- The last significand bit of a nonzero `m * 2 ^ e` with `|m| < 2 ^ 53` weighs at most
`2 ^ e`. -/
theorem ulpExponent_le {m e : ℤ} (hm0 : m ≠ 0) (hm : |m| < 2 ^ 53) (he : -1074 ≤ e) :
    ulpExponent (m * 2 ^ e) ≤ e := by
  have hpow : (0 : ℚ) < 2 ^ e := zpow_pos (by norm_num) _
  have hpos : (0 : ℚ) < |(m : ℚ) * 2 ^ e| :=
    abs_pos.mpr (mul_ne_zero (Int.cast_ne_zero.mpr hm0) hpow.ne')
  -- `|m * 2 ^ e| < 2 ^ (e + 53)`, so its leading one is below bit `e + 53`
  have hlt : |(m : ℚ) * 2 ^ e| < ((2 : ℕ) : ℚ) ^ (e + 53) := by
    have hm' : |(m : ℚ)| < 2 ^ 53 := by exact_mod_cast hm
    calc |(m : ℚ) * 2 ^ e| = |(m : ℚ)| * 2 ^ e := by rw [abs_mul, abs_of_pos hpow]
      _ < 2 ^ 53 * 2 ^ e := mul_lt_mul_of_pos_right hm' hpow
      _ = ((2 : ℕ) : ℚ) ^ (e + 53) := by
        rw [zpow_add₀ (by norm_num), mul_comm]
        norm_num
  have hlog := (Int.lt_zpow_iff_log_lt (by norm_num) hpos).mp hlt
  unfold ulpExponent
  omega

/-- A `double` is its own rounding. -/
theorem roundBinary64_eq_self (m e : ℤ) (hm : |m| < 2 ^ 53) (he : -1074 ≤ e) :
    roundBinary64 (m * 2 ^ e) = m * 2 ^ e := by
  by_cases hm0 : m = 0
  · simp [hm0, roundBinary64, roundHalfEven]
  · have hle := ulpExponent_le hm0 hm he
    -- `m * 2 ^ e` is a whole multiple of the weight `2 ^ u` of the last bit
    obtain ⟨k, hk⟩ : ∃ k : ℕ, e = ulpExponent ((m : ℚ) * 2 ^ e) + k :=
      ⟨(e - ulpExponent ((m : ℚ) * 2 ^ e)).toNat, by omega⟩
    rw [roundBinary64]
    generalize ulpExponent ((m : ℚ) * 2 ^ e) = u at hk ⊢
    subst hk
    have hquot : (m : ℚ) * 2 ^ (u + k) / 2 ^ u = ((m * 2 ^ k : ℤ) : ℚ) := by
      rw [zpow_add₀ (by norm_num), zpow_natCast]
      field_simp
      push_cast
      ring
    rw [hquot, roundHalfEven_intCast, zpow_add₀ (by norm_num), zpow_natCast]
    push_cast
    ring

/-- A natural number below `2 ^ 53` is a `double`. -/
theorem roundBinary64_natCast {n : ℕ} (hn : n < 2 ^ 53) : roundBinary64 n = n := by
  have h := roundBinary64_eq_self n 0 (by rw [Nat.abs_cast]; exact_mod_cast hn) (by norm_num)
  simpa using h

end RocksCloud.Lib
