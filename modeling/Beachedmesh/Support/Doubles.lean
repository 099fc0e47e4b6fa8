import Mathlib.Data.Int.Log
import Mathlib.Data.Rat.Floor
import Mathlib.Tactic

/-!
# Doubles among the rationals

The finite doubles, with 53 bits and exponents from -1074 to 971, and the rounding of a
rational to the nearest of them, ties to the even one.
-/
namespace Doubles

def IsDouble (x : ℚ) : Prop :=
  ∃ m e : ℤ, |m| < 2 ^ 53 ∧ -1074 ≤ e ∧ e ≤ 971 ∧ x = m * 2 ^ e

/-- To the nearest integer. -/
def roundEven (x : ℚ) : ℤ :=
  let n := ⌊x⌋
  let rest := x - n
  if rest < 1 / 2 ∨ (rest = 1 / 2 ∧ n % 2 = 0) then n else n + 1

/-- The exponent of the last bit. -/
def lastBit (x : ℚ) : ℤ := max (-1074) (Int.log 2 |x| - 52)

/-- To the nearest double, `none` beyond the largest. -/
def toDouble (x : ℚ) : Option ℚ :=
  let y : ℚ := roundEven (x / 2 ^ lastBit x) * 2 ^ lastBit x
  if |y| < 2 ^ 1024 then some y else none

theorem roundEven_intCast (n : ℤ) : roundEven n = n := by
  simp [roundEven]

theorem lastBit_le {m e : ℤ} (hm : |m| < 2 ^ 53) (he : -1074 ≤ e) (h0 : m ≠ 0) :
    lastBit (m * 2 ^ e) ≤ e := by
  refine max_le he ?_
  have hpow : (0 : ℚ) < 2 ^ e := by positivity
  have habs : |(m : ℚ) * 2 ^ e| < 2 ^ (53 + e) := by
    rw [abs_mul, abs_of_pos hpow, zpow_add₀ two_ne_zero]
    exact mul_lt_mul_of_pos_right (by exact_mod_cast hm) hpow
  have hpos : 0 < |(m : ℚ) * 2 ^ e| := abs_pos.mpr (mul_ne_zero (by exact_mod_cast h0) hpow.ne')
  have hlog := (Int.lt_zpow_iff_log_lt (b := 2) one_lt_two hpos).mp (by exact_mod_cast habs)
  omega

theorem abs_lt_of_isDouble {x : ℚ} (h : IsDouble x) : |x| < 2 ^ 1024 := by
  obtain ⟨m, e, hm, -, hhi, rfl⟩ := h
  have hpow : (0 : ℚ) < 2 ^ e := by positivity
  calc |(m : ℚ) * 2 ^ e| = |(m : ℚ)| * 2 ^ e := by rw [abs_mul, abs_of_pos hpow]
    _ < 2 ^ 53 * 2 ^ e := mul_lt_mul_of_pos_right (by exact_mod_cast hm) hpow
    _ ≤ 2 ^ 53 * 2 ^ ((971 : ℕ) : ℤ) := by
      gcongr
      · norm_num
      · exact hhi
    _ = 2 ^ 1024 := by rw [zpow_natCast, ← pow_add]

/-- A double is its own rounding. -/
theorem toDouble_of_isDouble {x : ℚ} (h : IsDouble x) : toDouble x = some x := by
  have hround : (roundEven (x / 2 ^ lastBit x) * 2 ^ lastBit x : ℚ) = x := by
    obtain ⟨m, e, hm, hlo, -, rfl⟩ := h
    rcases eq_or_ne m 0 with rfl | h0
    · simp [roundEven]
    · obtain ⟨k, hk⟩ := Int.eq_ofNat_of_zero_le (sub_nonneg.mpr (lastBit_le hm hlo h0))
      generalize lastBit (m * 2 ^ e) = l at hk ⊢
      have hint : (m : ℚ) * 2 ^ e / 2 ^ l = (m * 2 ^ k : ℤ) := by
        rw [mul_div_assoc, ← zpow_sub₀ two_ne_zero, hk]
        push_cast
        rfl
      rw [hint, roundEven_intCast, ← hint]
      field_simp
  simp only [toDouble, hround, abs_lt_of_isDouble h, if_true]

/-- The whole part of a double is a double. -/
theorem IsDouble.floor {x : ℚ} (h : IsDouble x) (h0 : 0 ≤ x) : IsDouble ⌊x⌋ := by
  obtain ⟨m, e, hm, hlo, hhi, rfl⟩ := h
  have hpow : (0 : ℚ) < 2 ^ e := by positivity
  rcases le_or_gt 0 e with he | he
  · obtain ⟨k, rfl⟩ := Int.eq_ofNat_of_zero_le he
    have hint : (m : ℚ) * 2 ^ (k : ℤ) = (m * 2 ^ k : ℤ) := by
      push_cast
      rfl
    exact ⟨m, k, hm, hlo, hhi, by rw [hint, Int.floor_intCast]⟩
  · have hm0 : 0 ≤ m := by exact_mod_cast nonneg_of_mul_nonneg_left h0 hpow
    have hfloor : ⌊(m : ℚ) * 2 ^ e⌋ ≤ m := by
      have hle : (m : ℚ) * 2 ^ e ≤ m :=
        mul_le_of_le_one_right (by exact_mod_cast hm0) (zpow_le_one_of_nonpos₀ one_le_two he.le)
      exact_mod_cast (Int.floor_le _).trans hle
    refine ⟨⌊(m : ℚ) * 2 ^ e⌋, 0, ?_, by norm_num, by norm_num, by simp⟩
    rw [abs_of_nonneg (Int.floor_nonneg.mpr h0)]
    exact lt_of_le_of_lt hfloor (lt_of_abs_lt hm)

end Doubles
