import Mathlib.Data.List.Basic
import Mathlib.Data.Nat.Bitwise
import Mathlib.Tactic.Ring

/-!
# Prefixes of words

Numbers written as lists of sixteen-bit words, the highest first.  Masking every word
with its part of a prefix's bits compares the prefixes of the numbers.
-/

namespace Prefixes

/-- The number of a list of words. -/
def value : List ℕ → ℕ
  | [] => 0
  | w :: ws => w * 65536 ^ ws.length + value ws

/-- The mask of the first `left` bits of a word. -/
def mask (left : ℕ) : ℕ := (0xffff <<< (16 - left)) &&& 0xffff

/-- Words that agree under the masks of `bits` bits. -/
def Agree : ℕ → List ℕ → List ℕ → Prop
  | _, [], [] => True
  | bits, u :: us, v :: vs => u &&& mask (min 16 bits) = v &&& mask (min 16 bits) ∧ Agree (bits - 16) us vs
  | _, _, _ => False

theorem value_lt {ws : List ℕ} (h : ∀ w ∈ ws, w < 65536) : value ws < 65536 ^ ws.length := by
  induction ws with
  | nil => exact Nat.one_pos
  | cons w ws ih =>
    have hw := h w List.mem_cons_self
    have hws := ih fun v hv => h v (List.mem_cons_of_mem _ hv)
    calc value (w :: ws) < w * 65536 ^ ws.length + 65536 ^ ws.length := by
          rw [value]
          omega
      _ = (w + 1) * 65536 ^ ws.length := by ring
      _ ≤ 65536 * 65536 ^ ws.length := Nat.mul_le_mul_right _ hw
      _ = 65536 ^ (w :: ws).length := by rw [List.length_cons, Nat.pow_succ, Nat.mul_comm]

/-- A masked word keeps its first bits. -/
theorem and_mask {w left : ℕ} (hw : w < 65536) : w &&& mask left = w / 2 ^ (16 - left) * 2 ^ (16 - left) := by
  apply Nat.eq_of_testBit_eq
  intro i
  rw [mask, Nat.testBit_and, Nat.testBit_and, Nat.testBit_shiftLeft, ← Nat.shiftLeft_eq, Nat.testBit_shiftLeft,
    ← Nat.shiftRight_eq_div_pow, Nat.testBit_shiftRight]
  have hones : (0xffff : ℕ) = 2 ^ 16 - 1 := rfl
  rw [hones, Nat.testBit_two_pow_sub_one, Nat.testBit_two_pow_sub_one]
  by_cases hi : 16 - left ≤ i
  · by_cases hhigh : i < 16
    · simp [hi, hhigh, Nat.add_sub_cancel' hi]
      intro
      omega
    · have : w.testBit i = false := Nat.testBit_lt_two_pow (lt_of_lt_of_le hw (Nat.pow_le_pow_right (show 2 > 0 by decide) (by omega : 16 ≤ i)))
      simp [hi, hhigh, Nat.add_sub_cancel' hi, this]
  · simp [hi]

theorem and_mask_eq_iff {u v left : ℕ} (hu : u < 65536) (hv : v < 65536) :
    u &&& mask left = v &&& mask left ↔ u / 2 ^ (16 - left) = v / 2 ^ (16 - left) := by
  rw [and_mask hu, and_mask hv]
  constructor
  · exact Nat.eq_of_mul_eq_mul_right (Nat.two_pow_pos _)
  · exact congrArg (· * _)

/-- Masked words agree exactly when the numbers have the first `bits` bits in common. -/
theorem agree_iff {us vs : List ℕ} (hlength : us.length = vs.length) (hu : ∀ w ∈ us, w < 65536) (hv : ∀ w ∈ vs, w < 65536)
    {bits : ℕ} (hbits : bits ≤ 16 * us.length) :
    Agree bits us vs ↔ value us / 2 ^ (16 * us.length - bits) = value vs / 2 ^ (16 * us.length - bits) := by
  induction us generalizing vs bits with
  | nil =>
    cases vs with
    | nil => simp [Agree]
    | cons v vs => cases hlength
  | cons u us ih =>
    cases vs with
    | nil => cases hlength
    | cons v vs =>
      have hlength : us.length = vs.length := Nat.succ.inj hlength
      have hu' := hu u List.mem_cons_self
      have hv' := hv v List.mem_cons_self
      have hus := value_lt fun w hw => hu w (List.mem_cons_of_mem _ hw)
      have hvs := value_lt fun w hw => hv w (List.mem_cons_of_mem _ hw)
      rw [← hlength] at hvs
      have hpow : (65536 : ℕ) ^ us.length = 2 ^ (16 * us.length) := by rw [Nat.pow_mul]
      rw [List.length_cons] at hbits ⊢
      rw [Agree, and_mask_eq_iff hu' hv', value, value, ← hlength]
      have ih : ∀ b, b ≤ 16 * us.length →
          (Agree b us vs ↔ value us / 2 ^ (16 * us.length - b) = value vs / 2 ^ (16 * us.length - b)) := fun b =>
        ih hlength (fun w hw => hu w (List.mem_cons_of_mem _ hw)) (fun w hw => hv w (List.mem_cons_of_mem _ hw))
      rw [hpow] at hus hvs ⊢
      generalize us.length = n at *
      rcases Nat.lt_or_ge bits 16 with hlt | hge
      · -- the prefix ends in the first word
        have hrest : Agree (bits - 16) us vs := by
          rw [ih _ (by omega), show 16 * n - (bits - 16) = 16 * n by omega, Nat.div_eq_of_lt hus, Nat.div_eq_of_lt hvs]
        have hquot : ∀ w r, r < 2 ^ (16 * n) → (w * 2 ^ (16 * n) + r) / 2 ^ (16 * (n + 1) - bits) = w / 2 ^ (16 - bits) := by
          intro w r hr
          rw [show 16 * (n + 1) - bits = 16 * n + (16 - bits) by omega, Nat.pow_add, ← Nat.div_div_eq_div_mul,
            Nat.mul_comm, Nat.mul_add_div (Nat.two_pow_pos _), Nat.div_eq_of_lt hr, Nat.add_zero]
        rw [hquot u _ hus, hquot v _ hvs, Nat.min_eq_right hlt.le]
        exact and_iff_left hrest
      · -- the first word is within the prefix
        obtain ⟨b, rfl⟩ : ∃ b, bits = b + 16 := ⟨bits - 16, by omega⟩
        have hsplit : 2 ^ (16 * n) = 2 ^ b * 2 ^ (16 * n - b) := by
          rw [← Nat.pow_add]
          congr 1
          omega
        have hquot : ∀ w r, (w * 2 ^ (16 * n) + r) / 2 ^ (16 * (n + 1) - (b + 16)) = 2 ^ b * w + r / 2 ^ (16 * n - b) := by
          intro w r
          rw [show 16 * (n + 1) - (b + 16) = 16 * n - b by omega, hsplit,
            show w * (2 ^ b * 2 ^ (16 * n - b)) + r = 2 ^ (16 * n - b) * (2 ^ b * w) + r by ring,
            Nat.mul_add_div (Nat.two_pow_pos _)]
        have hlow : ∀ r, r < 2 ^ (16 * n) → r / 2 ^ (16 * n - b) < 2 ^ b := by
          intro r hr
          rw [hsplit, Nat.mul_comm] at hr
          exact Nat.div_lt_of_lt_mul hr
        rw [hquot, hquot, Nat.add_sub_cancel, ih _ (by omega), Nat.min_eq_left (by omega), Nat.sub_self, Nat.pow_zero,
          Nat.div_one, Nat.div_one]
        have hur := hlow _ hus
        have hvr := hlow _ hvs
        constructor
        · rintro ⟨rfl, hrest⟩
          rw [hrest]
        · intro heq
          have hword := congrArg (· / 2 ^ b) heq
          simp only [Nat.mul_add_div (Nat.two_pow_pos b), Nat.div_eq_of_lt hur, Nat.div_eq_of_lt hvr, Nat.add_zero] at hword
          subst hword
          exact ⟨rfl, Nat.add_left_cancel heq⟩

end Prefixes
