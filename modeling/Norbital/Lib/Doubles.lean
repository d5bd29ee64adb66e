import Mathlib.Algebra.Order.Round
import Mathlib.Data.Int.Log
import Mathlib.Data.Rat.Floor
import Mathlib.Tactic.Linarith
import Mathlib.Tactic.NormNum

/-!
# Doubles

The double nearest to a rational number, below the largest one.
-/

namespace Doubles

/-- The whole number nearest to a rational, the even one of two as near. -/
def roundEven (x : ℚ) : ℤ :=
  if x - ⌊x⌋ < 1 / 2 then ⌊x⌋
  else if 1 / 2 < x - ⌊x⌋ then ⌊x⌋ + 1
  else if ⌊x⌋ % 2 = 0 then ⌊x⌋ else ⌊x⌋ + 1

/-- The power of two the last of 53 bits stands for. -/
def place (x : ℚ) : ℤ := max (Int.log 2 |x| - 52) (-1074)

def double (x : ℚ) : ℚ := roundEven (x / 2 ^ place x) * 2 ^ place x

/-- `Number.isSafeInteger`. -/
def IsSafe (x : ℚ) : Prop := x.isInt = true ∧ |x| ≤ 9007199254740991

instance (x : ℚ) : Decidable (IsSafe x) := inferInstanceAs (Decidable (_ ∧ _))

/-- `x % 1`: the fraction under the sign of the number. -/
def fraction (x : ℚ) : ℚ := if x < 0 then x - ⌈x⌉ else x - ⌊x⌋

/-- `Math.round`. -/
def roundUp (x : ℚ) : ℤ := ⌊x + 1 / 2⌋

@[simp] theorem roundEven_intCast (n : ℤ) : roundEven n = n := by
  rw [roundEven, Int.floor_intCast, sub_self, if_pos (by norm_num)]

/-- The last place of a number of 53 bits is at most the first of them. -/
theorem place_le {x : ℚ} {m e : ℤ} (hx : x = m * 2 ^ e) (hne : x ≠ 0) (hm : |m| < 2 ^ 53) (he : -1074 ≤ e) :
    place x ≤ e := by
  refine max_le ?_ he
  have hpow : (0 : ℚ) < 2 ^ e := zpow_pos (by norm_num) e
  have hcast : |(m : ℚ)| < 2 ^ (53 : ℤ) := by exact_mod_cast hm
  have hlog : ((2 : ℕ) : ℚ) ^ Int.log 2 |x| < ((2 : ℕ) : ℚ) ^ (53 + e) := by
    refine (Int.zpow_log_le_self (by norm_num) (abs_pos.mpr hne)).trans_lt ?_
    rw [hx, abs_mul, abs_of_pos hpow, Nat.cast_ofNat, zpow_add₀ (by norm_num)]
    exact mul_lt_mul_of_pos_right hcast hpow
  have := (zpow_lt_zpow_iff_right₀ (by norm_num : (1 : ℚ) < ((2 : ℕ) : ℚ))).mp hlog
  omega

/-- A number of 53 bits is its own double. -/
theorem double_eq_self {x : ℚ} {m e : ℤ} (hx : x = m * 2 ^ e) (hm : |m| < 2 ^ 53) (he : -1074 ≤ e) : double x = x := by
  by_cases hzero : x = 0
  · have hround : roundEven 0 = 0 := roundEven_intCast 0
    rw [double, hzero, zero_div, hround, Int.cast_zero, zero_mul]
  · obtain ⟨k, hk⟩ : ∃ k : ℕ, e = place x + k := ⟨(e - place x).toNat, by have := place_le hx hzero hm he; omega⟩
    have hpow : (2 : ℚ) ^ place x ≠ 0 := zpow_ne_zero _ (by norm_num)
    have hwhole : x / 2 ^ place x = ((m * 2 ^ k : ℤ) : ℚ) := by
      have hsplit : (2 : ℚ) ^ e = 2 ^ place x * 2 ^ (k : ℤ) := by rw [← zpow_add₀ (by norm_num), ← hk]
      rw [div_eq_iff hpow, Int.cast_mul, Int.cast_pow, Int.cast_ofNat, ← zpow_natCast, mul_assoc, mul_comm (2 ^ (k : ℤ)),
        ← hsplit]
      exact hx
    rw [double, hwhole, roundEven_intCast, ← hwhole, div_mul_cancel₀ x hpow]

theorem double_intCast {n : ℤ} (h : |n| < 2 ^ 53) : double n = n :=
  double_eq_self (e := 0) (by rw [zpow_zero, mul_one]) h (by decide)

theorem isSafe_intCast {n : ℤ} : IsSafe n ↔ |n| ≤ 9007199254740991 := by
  rw [IsSafe, and_iff_right (by simp [Rat.isInt])]
  exact_mod_cast Iff.rfl

theorem IsSafe.eq_num {x : ℚ} (h : IsSafe x) : (x.num : ℚ) = x := by
  have hden : x.den = 1 := by simpa [Rat.isInt] using h.1
  exact Rat.coe_int_num_of_den_eq_one hden

example : double (1 / 10) = 3602879701896397 / 36028797018963968 := by decide +kernel

end Doubles
