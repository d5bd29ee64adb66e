import Mathlib.Algebra.Order.Floor.Ring
import Mathlib.Data.Rat.Floor
import Mathlib.Tactic.Linarith
import Mathlib.Tactic.Push

/-!
# Rounding a rational to an integer

The six directed and nearest rounding modes as relations between a rational and
an integer, each with a uniqueness theorem.  The relations are stated without
any algorithm; `Rounds.unique` is what makes "the rounded value" well defined.
-/

namespace Rounding

/-- The rounding modes: `halfUp` rounds a tie away from zero, `halfEven` to the
even neighbour, `down` and `up` towards and away from zero. -/
inductive Mode where
  | halfUp
  | halfEven
  | down
  | up
  | floor
  | ceil
  deriving DecidableEq, Repr

/-- `Rounds mode x n`: the integer `n` is the rational `x` rounded by `mode`. -/
def Rounds (mode : Mode) (x : ℚ) (n : ℤ) : Prop :=
  match mode with
  | .down => n = if x < 0 then ⌈x⌉ else ⌊x⌋
  | .up => n = if x < 0 then ⌊x⌋ else ⌈x⌉
  | .floor => n = ⌊x⌋
  | .ceil => n = ⌈x⌉
  | .halfUp => |x - n| ≤ 1 / 2 ∧ (|x - n| = 1 / 2 → |x| < |(n : ℚ)|)
  | .halfEven => |x - n| ≤ 1 / 2 ∧ (|x - n| = 1 / 2 → Even n)

/-- The mode that rounds `-x` to `-n` where the given one rounds `x` to `n`. -/
def Mode.opposite : Mode → Mode
  | .floor => .ceil
  | .ceil => .floor
  | mode => mode

@[simp]
theorem Mode.opposite_opposite (mode : Mode) : mode.opposite.opposite = mode := by
  cases mode <;> rfl

/-- Every mode leaves an integer as it is. -/
theorem Rounds.intCast (mode : Mode) (n : ℤ) : Rounds mode (n : ℚ) n := by
  cases mode <;> simp [Rounds]

/-- Rounding commutes with negation up to the exchange of `floor` and `ceil`. -/
theorem Rounds.neg {mode : Mode} {x : ℚ} {n : ℤ} (h : Rounds mode x n) :
    Rounds mode.opposite (-x) (-n) := by
  have habs : |-x - ((-n : ℤ) : ℚ)| = |x - n| := by
    rw [Int.cast_neg, ← neg_sub', abs_neg]
  cases mode with
  | floor => simp only [Mode.opposite, Rounds, Int.ceil_neg] at h ⊢; rw [h]
  | ceil => simp only [Mode.opposite, Rounds, Int.floor_neg] at h ⊢; rw [h]
  | down | up =>
    simp only [Mode.opposite, Rounds, Int.ceil_neg, Int.floor_neg, neg_lt_zero] at h ⊢
    rcases lt_trichotomy x 0 with hx | hx | hx
    · rw [if_pos hx] at h
      rw [if_neg (by linarith), h]
    · simp [h, hx]
    · rw [if_neg (by linarith)] at h
      rw [if_pos hx, h]
  | halfUp =>
    simp only [Mode.opposite, Rounds, habs] at h ⊢
    rwa [Int.cast_neg, abs_neg, abs_neg]
  | halfEven =>
    simp only [Mode.opposite, Rounds, habs, even_neg] at h ⊢
    exact h

/-- Two integers within one half of the same rational are equal, or neighbours
and both exactly one half away. -/
theorem nearest_cases {x : ℚ} {m n : ℤ} (hm : |x - m| ≤ 1 / 2) (hn : |x - n| ≤ 1 / 2) :
    m = n ∨ (|x - m| = 1 / 2 ∧ |x - n| = 1 / 2 ∧
      ((m = n + 1 ∧ x = n + 1 / 2) ∨ (n = m + 1 ∧ x = m + 1 / 2))) := by
  rw [abs_le] at hm hn
  rcases lt_trichotomy m n with hlt | heq | hgt
  · right
    have hle : (m : ℚ) + 1 ≤ n := by exact_mod_cast hlt
    have hx : x = m + 1 / 2 := by linarith
    have hnm : (n : ℚ) = m + 1 := by linarith
    refine ⟨?_, ?_, Or.inr ⟨by exact_mod_cast hnm, hx⟩⟩
    · rw [hx, add_sub_cancel_left, abs_of_pos (by norm_num)]
    · rw [hx, hnm, add_sub_add_left_eq_sub, abs_of_neg (by norm_num)]
      norm_num
  · exact Or.inl heq
  · right
    have hle : (n : ℚ) + 1 ≤ m := by exact_mod_cast hgt
    have hx : x = n + 1 / 2 := by linarith
    have hmn : (m : ℚ) = n + 1 := by linarith
    refine ⟨?_, ?_, Or.inl ⟨by exact_mod_cast hmn, hx⟩⟩
    · rw [hx, hmn, add_sub_add_left_eq_sub, abs_of_neg (by norm_num)]
      norm_num
    · rw [hx, add_sub_cancel_left, abs_of_pos (by norm_num)]

/-- Of two neighbours around a tie, only one is farther from zero than the tie. -/
private theorem not_both_away {x : ℚ} {n : ℤ} (hx : x = n + 1 / 2)
    (h₁ : |x| < |(n : ℚ)|) (h₂ : |x| < |((n + 1 : ℤ) : ℚ)|) : False := by
  rcases le_or_gt 0 n with h | h
  · have hn : (0 : ℚ) ≤ n := by exact_mod_cast h
    rw [abs_of_nonneg hn, abs_of_nonneg (by linarith)] at h₁
    linarith
  · have hn : (n : ℚ) + 1 ≤ 0 := by exact_mod_cast h
    push_cast at h₂
    rw [abs_of_nonpos (by linarith), abs_of_nonpos (by linarith)] at h₂
    linarith

/-- A rounding mode gives at most one integer. -/
theorem Rounds.unique {mode : Mode} {x : ℚ} {m n : ℤ}
    (hm : Rounds mode x m) (hn : Rounds mode x n) : m = n := by
  cases mode with
  | down | up | floor | ceil => exact hm.trans hn.symm
  | halfUp =>
    obtain ⟨hm, hma⟩ := hm
    obtain ⟨hn, hna⟩ := hn
    rcases nearest_cases hm hn with h | ⟨htm, htn, ⟨rfl, hx⟩ | ⟨rfl, hx⟩⟩
    · exact h
    · exact (not_both_away hx (hna htn) (hma htm)).elim
    · exact (not_both_away hx (hma htm) (hna htn)).elim
  | halfEven =>
    obtain ⟨hm, hme⟩ := hm
    obtain ⟨hn, hne⟩ := hn
    rcases nearest_cases hm hn with h | ⟨htm, htn, ⟨rfl, -⟩ | ⟨rfl, -⟩⟩
    · exact h
    · exact absurd (hne htn) (Int.even_add_one.mp (hme htm))
    · exact absurd (hme htm) (Int.even_add_one.mp (hne htn))

end Rounding
