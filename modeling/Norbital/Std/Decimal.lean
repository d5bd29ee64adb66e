import Mathlib.Tactic.Ring
import Mathlib.Tactic.FieldSimp
import Norbital.Lib.Rounding
import Norbital.Lib.Trim

/-!
# Exact decimals

The `Decimal` class of `std/src/decimal.ts`: a `bigint` coefficient `c` and a
scale `s`, denoting the rational `c · 10⁻ˢ`.  The operations are the source's,
with its `RangeError` texts; `value` is the denotation they are compared with.

The class constructor is private, but `div` hands its scale on unchecked, so a
`Decimal` of negative scale exists.  Arithmetic on it is still exact; only its
printed text loses the factor `10⁻ˢ`.
-/

namespace Norbital.Std

open Rounding Lib

/-- A thrown `RangeError` with its message. -/
structure RangeError where
  message : String
  deriving DecidableEq, Repr

/-- An exact decimal: a `bigint` coefficient and a scale. -/
structure Decimal where
  c : ℤ
  s : ℤ
  deriving DecidableEq, Repr

/-- `10n ** BigInt(n)`.  Every call passes `n ≥ 0`; a negative exponent, which
JavaScript refuses, is read as `0`. -/
def pow10 (n : ℤ) : ℤ := 10 ^ n.toNat

/-- `n / d` rounded by `mode`, for `d > 0`; `/` and `%` truncate, as on `bigint`. -/
def divRound (n d : ℤ) (mode : Mode) : ℤ :=
  let q := n.tdiv d
  let r := n.tmod d
  if r = 0 then q
  else
    let neg : Bool := n < 0
    let away := if neg then q - 1 else q + 1
    let twice := (if r < 0 then -r else r) * 2
    match mode with
    | .down => q
    | .up => away
    | .floor => if neg then away else q
    | .ceil => if neg then q else away
    | .halfUp => if twice ≥ d then away else q
    | .halfEven => if twice > d ∨ (twice = d ∧ q.tmod 2 ≠ 0) then away else q

/-- `(\d+)(?:\.(\d+))?$`: the whole digits and the fraction digits (none without a point). -/
def matchDigits (text : List Char) : Option (List Char × List Char) :=
  let whole := text.takeWhile Char.isDigit
  match text.dropWhile Char.isDigit with
  | [] => if whole.isEmpty then none else some (whole, [])
  | ch :: frac =>
    if ch = '.' && !whole.isEmpty && !frac.isEmpty && frac.all Char.isDigit then some (whole, frac)
    else none

/-- `TEXT = /^([+-]?)(\d+)(?:\.(\d+))?$/`: whether a minus sign was read, and the two digit groups. -/
def matchText (text : List Char) : Option (Bool × List Char × List Char) :=
  match text with
  | '+' :: rest => (matchDigits rest).map (false, ·)
  | '-' :: rest => (matchDigits rest).map (true, ·)
  | _ => (matchDigits text).map (false, ·)

namespace Decimal

/-- `Decimal.of` of a text: blanks around it are dropped, exponents and other text refused. -/
def of (text : String) : Except RangeError Decimal :=
  match matchText (trim text.toList) with
  | none => .error ⟨s!"'{text}' is not a decimal"⟩
  | some (minus, whole, frac) =>
    let c : ℤ := Nat.ofDigitChars 10 (whole ++ frac) 0
    .ok ⟨if minus then -c else c, frac.length⟩

/-- `#at`: the coefficient at a scale no smaller than the decimal's own. -/
def «at» (d : Decimal) (s : ℤ) : ℤ := d.c * pow10 (s - d.s)

/-- `#pair`: both coefficients at the larger scale, and that scale. -/
def pair (a b : Decimal) : ℤ × ℤ × ℤ :=
  let s := max a.s b.s
  (a.at s, b.at s, s)

def plus (a b : Decimal) : Decimal :=
  let (x, y, s) := pair a b
  ⟨x + y, s⟩

def minus (a b : Decimal) : Decimal :=
  let (x, y, s) := pair a b
  ⟨x - y, s⟩

def times (a b : Decimal) : Decimal := ⟨a.c * b.c, a.s + b.s⟩

/-- Division rounds to `scale`, which it does not check. -/
def div (a b : Decimal) (scale : ℤ) (mode : Mode) : Except RangeError Decimal :=
  if b.c = 0 then .error ⟨"division by zero"⟩
  else
    let shift := b.s + scale - a.s
    let n := if shift ≥ 0 then a.c * pow10 shift else a.c
    let d := if shift ≥ 0 then b.c else b.c * pow10 (-shift)
    .ok ⟨if d < 0 then divRound (-n) (-d) mode else divRound n d mode, scale⟩

def round (d : Decimal) (scale : ℤ) (mode : Mode) : Except RangeError Decimal :=
  if scale < 0 then .error ⟨s!"scale {scale} is not a whole number ≥ 0"⟩
  else if scale ≥ d.s then .ok ⟨d.at scale, scale⟩
  else .ok ⟨divRound d.c (pow10 (d.s - scale)) mode, scale⟩

def neg (d : Decimal) : Decimal := ⟨-d.c, d.s⟩

def abs (d : Decimal) : Decimal := if d.c < 0 then d.neg else d

/-- The comparison of two decimals at their common scale. -/
def cmp (a b : Decimal) : Ordering :=
  let (x, y, _) := pair a b
  if x < y then .lt else if x > y then .gt else .eq

/-- The digits of `|c|`, padded with zeros to `s + 1` places (`padStart`). -/
def digits (d : Decimal) : List Char :=
  let ds := Nat.toDigits 10 d.c.natAbs
  List.replicate ((d.s + 1).toNat - ds.length) '0' ++ ds

/-- The decimal text with exactly `s` fraction digits; `slice` past the end takes every digit. -/
def toString (d : Decimal) : String :=
  let ds := d.digits
  let cut := ((ds.length : ℤ) - d.s).toNat
  .ofList ((if d.c < 0 then ['-'] else []) ++ ds.take cut ++
    (if d.s > 0 then '.' :: ds.drop cut else []))

/-- The rational a decimal denotes. -/
def value (d : Decimal) : ℚ := d.c / (10 : ℚ) ^ d.s

private theorem ten_zpow_ne (z : ℤ) : (10 : ℚ) ^ z ≠ 0 := zpow_ne_zero z (by norm_num)

private theorem ten_zpow_pos (z : ℤ) : (0 : ℚ) < (10 : ℚ) ^ z := zpow_pos (by norm_num) z

/-- At a nonnegative exponent `pow10` is the rational power of ten. -/
theorem pow10_cast {n : ℤ} (hn : 0 ≤ n) : ((pow10 n : ℤ) : ℚ) = (10 : ℚ) ^ n := by
  obtain ⟨k, rfl⟩ := Int.eq_ofNat_of_zero_le hn
  simp [pow10]

theorem pow10_pos (n : ℤ) : 0 < pow10 n := by
  unfold pow10
  positivity

/-- A coefficient moved to a larger scale denotes the same rational. -/
theorem at_cast (d : Decimal) {s : ℤ} (hs : d.s ≤ s) :
    (d.at s : ℚ) = d.value * (10 : ℚ) ^ s := by
  rw [«at», Int.cast_mul, pow10_cast (by omega), value, zpow_sub₀ (by norm_num)]
  field_simp

theorem value_mk (c s : ℤ) : (⟨c, s⟩ : Decimal).value = c / (10 : ℚ) ^ s := rfl

theorem value_plus (a b : Decimal) : (a.plus b).value = a.value + b.value := by
  simp only [plus, pair, value_mk, Int.cast_add]
  rw [at_cast a (le_max_left _ _), at_cast b (le_max_right _ _)]
  field_simp [ten_zpow_ne]

theorem value_minus (a b : Decimal) : (a.minus b).value = a.value - b.value := by
  simp only [minus, pair, value_mk, Int.cast_sub]
  rw [at_cast a (le_max_left _ _), at_cast b (le_max_right _ _)]
  field_simp [ten_zpow_ne]

theorem value_times (a b : Decimal) : (a.times b).value = a.value * b.value := by
  simp only [times, value, Int.cast_mul, zpow_add₀ (show (10 : ℚ) ≠ 0 by norm_num)]
  field_simp

/-- `cmp` is the order of the denoted rationals, whatever the two scales. -/
theorem cmp_eq (a b : Decimal) : a.cmp b = compare a.value b.value := by
  set s := max a.s b.s with hs
  have ha := at_cast a (le_max_left a.s b.s)
  have hb := at_cast b (le_max_right a.s b.s)
  rw [← hs] at ha hb
  have hlt : a.at s < b.at s ↔ a.value < b.value := by
    rw [← Int.cast_lt (R := ℚ), ha, hb]
    exact mul_lt_mul_iff_left₀ (ten_zpow_pos s)
  have hgt : b.at s < a.at s ↔ b.value < a.value := by
    rw [← Int.cast_lt (R := ℚ), ha, hb]
    exact mul_lt_mul_iff_left₀ (ten_zpow_pos s)
  simp only [cmp, pair, ← hs, gt_iff_lt, hlt, hgt]
  split_ifs with h₁ h₂
  · exact (compare_lt_iff_lt.mpr h₁).symm
  · exact (compare_gt_iff_gt.mpr h₂).symm
  · exact (compare_eq_iff_eq.mpr (le_antisymm (not_lt.mp h₂) (not_lt.mp h₁))).symm

/-- Truncated division with remainder, read over the rationals. -/
private theorem div_eq_tdiv_add {n d : ℤ} (hd : 0 < d) :
    (n : ℚ) / d = n.tdiv d + (n.tmod d : ℚ) / d := by
  have hd' : (d : ℚ) ≠ 0 := by exact_mod_cast hd.ne'
  have h : (d : ℚ) * n.tdiv d + n.tmod d = n := by exact_mod_cast Int.mul_tdiv_add_tmod n d
  field_simp
  linarith

/-- A dividend at or above zero rounds between its truncation and the next integer. -/
private theorem rounds_of_nonneg {q r d : ℤ} {x : ℚ} (mode : Mode) (hq : 0 ≤ q) (hr : 0 < r)
    (hrd : r < d) (hx : x = q + (r : ℚ) / d) :
    Rounds mode x (match mode with
      | .down => q
      | .up => q + 1
      | .floor => q
      | .ceil => q + 1
      | .halfUp => if r * 2 ≥ d then q + 1 else q
      | .halfEven => if r * 2 > d ∨ (r * 2 = d ∧ q.tmod 2 ≠ 0) then q + 1 else q) := by
  have hdq : (0 : ℚ) < d := by exact_mod_cast hr.trans hrd
  have hrq : (0 : ℚ) < r := by exact_mod_cast hr
  have hqq : (0 : ℚ) ≤ q := by exact_mod_cast hq
  set f : ℚ := (r : ℚ) / d with hf
  have hf0 : 0 < f := div_pos hrq hdq
  have hf1 : f < 1 := (div_lt_one hdq).mpr (by exact_mod_cast hrd)
  have hxn : ¬ x < 0 := by rw [hx]; linarith
  have hfl : ⌊x⌋ = q := Int.floor_eq_iff.mpr (by constructor <;> linarith)
  have hce : ⌈x⌉ = q + 1 := Int.ceil_eq_iff.mpr (by push_cast; constructor <;> linarith)
  -- the code compares twice the remainder with the divisor: the fraction with a half
  have hhalf : d ≤ r * 2 ↔ 1 / 2 ≤ f := by
    rw [hf, le_div_iff₀ hdq, ← Int.cast_le (R := ℚ)]
    push_cast
    constructor <;> intro h <;> linarith
  have htie : r * 2 = d ↔ f = 1 / 2 := by
    rw [hf, div_eq_iff hdq.ne', ← Int.cast_inj (α := ℚ)]
    push_cast
    constructor <;> intro h <;> linarith
  have hup : |x - ((q + 1 : ℤ) : ℚ)| = 1 - f := by
    rw [hx, Int.cast_add, Int.cast_one, abs_of_neg (by linarith)]
    ring
  have hdown : |x - (q : ℚ)| = f := by
    rw [hx, add_sub_cancel_left, abs_of_pos hf0]
  cases mode with
  | down => simp only [Rounds, hxn, if_false, hfl]
  | up => simp only [Rounds, hxn, if_false, hce]
  | floor => exact hfl.symm
  | ceil => exact hce.symm
  | halfUp =>
    simp only [Rounds, ge_iff_le, hhalf]
    split_ifs with h
    · rw [hup]
      refine ⟨by linarith, fun _ => ?_⟩
      rw [hx, abs_of_nonneg (by linarith), abs_of_nonneg (by push_cast; linarith)]
      push_cast
      linarith
    · rw [hdown]
      push Not at h
      exact ⟨h.le, fun ht => absurd ht h.ne⟩
  | halfEven =>
    have hgt : r * 2 > d ↔ 1 / 2 < f := by
      rw [gt_iff_lt, lt_iff_le_and_ne, lt_iff_le_and_ne, hhalf, ne_comm, ne_eq, htie, ne_comm]
    have hodd : q.tmod 2 ≠ 0 ↔ ¬ Even q := by
      rw [Int.tmod_eq_emod_of_nonneg hq, Int.even_iff]
    simp only [Rounds, hgt, htie, hodd]
    split_ifs with h
    · rw [hup]
      rcases h with h | ⟨h, hq⟩
      · exact ⟨by linarith, fun ht => absurd ht (by linarith)⟩
      · exact ⟨by linarith, fun _ => Int.even_add_one.mpr hq⟩
    · rw [hdown]
      push Not at h
      exact ⟨h.1, h.2⟩

/-- `divRound` of a negative dividend mirrors that of its negation. -/
private theorem divRound_neg {n d : ℤ} (hn : 0 < n) (mode : Mode) :
    divRound (-n) d mode = -divRound n d mode.opposite := by
  have hneg : -n < 0 := by omega
  have hpos : ¬ n < 0 := by omega
  have hr : 0 ≤ n.tmod d := Int.tmod_nonneg d hn.le
  by_cases h0 : n.tmod d = 0
  · simp [divRound, Int.neg_tmod, Int.neg_tdiv, h0]
  · have hrn : ¬ n.tmod d < 0 := by omega
    have hrp : -n.tmod d < 0 := by omega
    simp only [divRound, Int.neg_tmod, Int.neg_tdiv, neg_eq_zero, h0, if_false, hneg, hpos,
      decide_true, decide_false, if_true, Bool.false_eq_true, hrn, hrp, neg_neg, ne_eq]
    cases mode with
    | down | up | floor | ceil => simp only [Mode.opposite]; try ring
    | halfUp | halfEven =>
      simp only [Mode.opposite]
      split_ifs <;> ring

/-- `divRound n d` is the rational `n / d` rounded by the mode, for every positive `d`. -/
theorem divRound_rounds {n d : ℤ} (hd : 0 < d) (mode : Mode) :
    Rounds mode ((n : ℚ) / d) (divRound n d mode) := by
  -- a dividend at or above zero; a negative one is its mirror image
  have main : ∀ {n : ℤ} (mode : Mode), 0 ≤ n → Rounds mode ((n : ℚ) / d) (divRound n d mode) := by
    intro n mode hn
    rw [div_eq_tdiv_add hd]
    by_cases h0 : n.tmod d = 0
    · simpa [divRound, h0] using Rounds.intCast mode (n.tdiv d)
    · have hr : 0 < n.tmod d := lt_of_le_of_ne (Int.tmod_nonneg d hn) (Ne.symm h0)
      have h := rounds_of_nonneg mode (Int.tdiv_nonneg hn hd.le) hr (Int.tmod_lt_of_pos n hd) rfl
      have hn' : ¬ n < 0 := by omega
      have hr' : ¬ n.tmod d < 0 := by omega
      cases mode <;> simpa [divRound, h0, hn', hr'] using h
  rcases le_or_gt 0 n with hn | hn
  · exact main mode hn
  · have h := (main (n := -n) mode.opposite (by omega)).neg
    rw [Mode.opposite_opposite, ← divRound_neg (by omega), neg_neg] at h
    simpa [neg_div] using h

/-- A decimal `r` is the rational `x` rounded to `scale` by `mode`. -/
def IsRoundedTo (r : Decimal) (x : ℚ) (scale : ℤ) (mode : Mode) : Prop :=
  r.s = scale ∧ Rounds mode (x * (10 : ℚ) ^ scale) r.c

/-- Only one decimal is a rational rounded to a scale. -/
theorem IsRoundedTo.unique {r r' : Decimal} {x : ℚ} {scale : ℤ} {mode : Mode}
    (h : r.IsRoundedTo x scale mode) (h' : r'.IsRoundedTo x scale mode) : r = r' := by
  obtain ⟨hs, hc⟩ := h
  obtain ⟨hs', hc'⟩ := h'
  cases r
  cases r'
  simp only at hs hs' hc hc'
  rw [hs, hs', hc.unique hc']

/-- A decimal is zero exactly when its coefficient is. -/
theorem value_eq_zero (d : Decimal) : d.value = 0 ↔ d.c = 0 := by
  rw [value, div_eq_zero_iff, or_iff_left (ten_zpow_ne d.s), Int.cast_eq_zero]

/-- `div` refuses exactly a zero divisor, and else answers the rounded quotient. -/
theorem div_eq_ok (a b : Decimal) (scale : ℤ) (mode : Mode) (hb : b.value ≠ 0) :
    ∃ r, a.div b scale mode = .ok r ∧ r.IsRoundedTo (a.value / b.value) scale mode := by
  have hbc : b.c ≠ 0 := fun h => hb ((value_eq_zero b).mpr h)
  rw [div, if_neg hbc]
  refine ⟨_, rfl, rfl, ?_⟩
  set shift := b.s + scale - a.s with hshift
  set n := if shift ≥ 0 then a.c * pow10 shift else a.c with hn
  set d := if shift ≥ 0 then b.c else b.c * pow10 (-shift) with hd
  have hd0 : d ≠ 0 := by
    rw [hd]
    split_ifs
    · exact hbc
    · exact mul_ne_zero hbc (pow10_pos _).ne'
  -- the shifted quotient is the exact one at the requested scale
  have hq : a.value / b.value * (10 : ℚ) ^ scale = (n : ℚ) / d := by
    have hpow : a.value / b.value * (10 : ℚ) ^ scale = a.c / b.c * (10 : ℚ) ^ shift := by
      have hbq : (b.c : ℚ) ≠ 0 := by exact_mod_cast hbc
      rw [value, value, hshift, zpow_sub₀ (by norm_num), zpow_add₀ (by norm_num)]
      field_simp
    rw [hpow, hn, hd]
    split_ifs with h
    · rw [Int.cast_mul, pow10_cast h]
      ring
    · rw [Int.cast_mul, pow10_cast (by omega), zpow_neg]
      field_simp
  rw [hq]
  simp only
  split_ifs with h
  · have := divRound_rounds (n := -n) (d := -d) (by omega) mode
    simpa only [Int.cast_neg, neg_div_neg_eq] using this
  · exact divRound_rounds (by omega) mode

/-- `round` to a scale at or above zero answers the rounded decimal. -/
theorem round_eq_ok (d : Decimal) {scale : ℤ} (mode : Mode) (hs : 0 ≤ scale) :
    ∃ r, d.round scale mode = .ok r ∧ r.IsRoundedTo d.value scale mode := by
  rw [round, if_neg (by omega)]
  split_ifs with h
  · refine ⟨_, rfl, rfl, ?_⟩
    rw [← at_cast d h]
    exact Rounds.intCast mode _
  · refine ⟨_, rfl, rfl, ?_⟩
    have hx : d.value * (10 : ℚ) ^ scale = (d.c : ℚ) / pow10 (d.s - scale) := by
      rw [value, pow10_cast (by omega), zpow_sub₀ (by norm_num)]
      field_simp
    rw [hx]
    exact divRound_rounds (pow10_pos _) mode

private theorem takeWhile_all {p : Char → Bool} {l : List Char} (rest : List Char) (h : ∀ ch ∈ l, p ch)
    (hr : ∀ ch ∈ rest.head?, p ch = false) :
    (l ++ rest).takeWhile p = l ∧ (l ++ rest).dropWhile p = rest := by
  induction l with
  | nil =>
    cases rest with
    | nil => exact ⟨rfl, rfl⟩
    | cons a rest => simp [hr a (by simp)]
  | cons a l ih =>
    obtain ⟨ih₁, ih₂⟩ := ih (fun ch hch => h ch (by simp [hch]))
    have ha := h a (by simp)
    simp [ha, ih₁, ih₂]

/-- Digits, a point where fraction digits follow, and those digits are matched as written. -/
private theorem matchDigits_parts {whole frac : List Char} (hw : whole ≠ [])
    (hwd : ∀ ch ∈ whole, ch.isDigit) (hfd : ∀ ch ∈ frac, ch.isDigit) :
    matchDigits (whole ++ if frac = [] then [] else '.' :: frac) = some (whole, frac) := by
  have hall : frac.all Char.isDigit := List.all_eq_true.mpr hfd
  by_cases hf : frac = []
  · obtain ⟨htake, hdrop⟩ := takeWhile_all [] hwd (by simp)
    rw [if_pos hf, matchDigits, htake, hdrop]
    simp [hw, hf]
  · obtain ⟨htake, hdrop⟩ := takeWhile_all ('.' :: frac) hwd (by simp)
    rw [if_neg hf, matchDigits, htake, hdrop]
    simp [hw, hf, hall]

private theorem matchText_parts (minus : Bool) {whole : List Char} (frac : List Char) (hw : whole ≠ [])
    (hwd : ∀ ch ∈ whole, ch.isDigit) (hfd : ∀ ch ∈ frac, ch.isDigit) :
    matchText ((if minus then ['-'] else []) ++ whole ++ if frac = [] then [] else '.' :: frac) =
      some (minus, whole, frac) := by
  have h := matchDigits_parts hw hwd hfd
  cases minus with
  | true => simp [matchText, h]
  | false =>
    obtain ⟨a, l, rfl⟩ := List.exists_cons_of_ne_nil hw
    have ha := hwd a (by simp)
    have hplus : a ≠ '+' := by rintro rfl; exact absurd ha (by decide)
    have hminus : a ≠ '-' := by rintro rfl; exact absurd ha (by decide)
    simp only [Bool.false_eq_true, if_false, List.nil_append, List.cons_append] at h ⊢
    simp [matchText, hplus, hminus, h]

/-- The printed digits are decimal digits, at least `s + 1` of them, and read back as `|c|`. -/
private theorem digits_spec (d : Decimal) :
    (∀ ch ∈ d.digits, ch.isDigit) ∧ d.digits ≠ [] ∧ d.s < d.digits.length ∧
      Nat.ofDigitChars 10 d.digits 0 = d.c.natAbs := by
  have hmem : ∀ ch ∈ Nat.toDigits 10 d.c.natAbs, ch.isDigit := fun ch hch =>
    Nat.isDigit_of_mem_toDigits (by norm_num) (by norm_num) hch
  have hne : Nat.toDigits 10 d.c.natAbs ≠ [] := Nat.toDigits_ne_nil
  refine ⟨?_, ?_, ?_, ?_⟩
  · intro ch hch
    simp only [digits, List.mem_append, List.mem_replicate] at hch
    rcases hch with ⟨-, rfl⟩ | hch
    · decide
    · exact hmem ch hch
  · simp [digits, hne]
  · simp only [digits, List.length_append, List.length_replicate]
    omega
  · rw [digits, Nat.ofDigitChars_append, Nat.ofDigitChars_replicate_zero, Nat.mul_zero,
      Nat.ofDigitChars_toDigits (by norm_num) (by norm_num)]

/-- A read decimal never has a negative scale. -/
theorem scale_nonneg_of_of {text : String} {d : Decimal} (h : of text = .ok d) : 0 ≤ d.s := by
  unfold of at h
  split at h
  · cases h
  · cases h
    exact Int.natCast_nonneg _

/-- A decimal of scale at or above zero is read back from its text as it is. -/
theorem of_toString {d : Decimal} (hs : 0 ≤ d.s) : of d.toString = .ok d := by
  obtain ⟨hdig, hne, hlen, hval⟩ := digits_spec d
  set cut := ((d.digits.length : ℤ) - d.s).toNat with hcut
  have hcut0 : 0 < cut := by omega
  have hfrac : (d.digits.drop cut).length = d.s.toNat := by
    rw [List.length_drop]
    omega
  have hw : d.digits.take cut ≠ [] := by simp [hne, hcut0.ne']
  have htext : d.toString.toList = (if decide (d.c < 0) then ['-'] else []) ++ d.digits.take cut ++
      if d.digits.drop cut = [] then [] else '.' :: d.digits.drop cut := by
    have hempty : d.digits.drop cut = [] ↔ ¬ d.s > 0 := by
      rw [← List.length_eq_zero_iff, hfrac]
      omega
    simp only [toString, String.toList_ofList, ← hcut, hempty, decide_eq_true_eq]
    split_ifs <;> simp_all
  have htrim : trim d.toString.toList = d.toString.toList := by
    apply trim_of_all
    intro ch hch
    rw [htext, List.mem_append, List.mem_append] at hch
    rcases hch with (hch | hch) | hch
    · split_ifs at hch <;> simp_all [isSpace]
    · exact isSpace_of_isDigit (hdig ch (List.mem_of_mem_take hch))
    · split_ifs at hch
      · simp at hch
      · rcases List.mem_cons.mp hch with rfl | hch
        · decide
        · exact isSpace_of_isDigit (hdig ch (List.mem_of_mem_drop hch))
  have hmatch := matchText_parts (decide (d.c < 0)) (d.digits.drop cut) hw
    (fun ch hch => hdig ch (List.mem_of_mem_take hch))
    (fun ch hch => hdig ch (List.mem_of_mem_drop hch))
  have hc : (if decide (d.c < 0) then -(d.c.natAbs : ℤ) else (d.c.natAbs : ℤ)) = d.c := by
    split_ifs with h <;> simp only [decide_eq_true_eq] at h <;> omega
  have hscale : ((d.s.toNat : ℕ) : ℤ) = d.s := Int.toNat_of_nonneg hs
  rw [of, htrim, htext, hmatch]
  simp only [List.take_append_drop, hval, hfrac, hc, hscale]

/-- What exact decimal arithmetic promises of two decimals, a requested scale and a mode: sums,
differences and products denote the exact ones, a quotient and a rounding are the unique decimals
of that scale, the comparison is the order of the rationals, and the printed text of `a` reads
back with its value and scale. -/
structure ExactAt (a b : Decimal) (scale : ℤ) (mode : Mode) : Prop where
  plus : (a.plus b).value = a.value + b.value
  minus : (a.minus b).value = a.value - b.value
  times : (a.times b).value = a.value * b.value
  div : b.value ≠ 0 → ∃ r, a.div b scale mode = .ok r ∧
    r.IsRoundedTo (a.value / b.value) scale mode ∧
    ∀ r', r'.IsRoundedTo (a.value / b.value) scale mode → r' = r
  round : 0 ≤ scale → ∃ r, a.round scale mode = .ok r ∧ r.IsRoundedTo a.value scale mode ∧
    ∀ r', r'.IsRoundedTo a.value scale mode → r' = r
  cmp : a.cmp b = compare a.value b.value
  text : ∃ d, of a.toString = .ok d ∧ d.value = a.value ∧ d.s = a.s

/-- Decimal arithmetic is exact, and the text of a decimal reads back exactly when its scale is
not negative. -/
theorem exactAt_iff (a b : Decimal) (scale : ℤ) (mode : Mode) :
    ExactAt a b scale mode ↔ 0 ≤ a.s := by
  constructor
  · intro h
    obtain ⟨d, hd, -, hs⟩ := h.text
    rw [← hs]
    exact scale_nonneg_of_of hd
  · intro hs
    refine ⟨value_plus a b, value_minus a b, value_times a b, ?_, ?_, cmp_eq a b,
      ⟨a, of_toString hs, rfl, rfl⟩⟩
    · intro hb
      obtain ⟨r, hr, hrounded⟩ := div_eq_ok a b scale mode hb
      exact ⟨r, hr, hrounded, fun r' hr' => hr'.unique hrounded⟩
    · intro hscale
      obtain ⟨r, hr, hrounded⟩ := round_eq_ok a mode hscale
      exact ⟨r, hr, hrounded, fun r' hr' => hr'.unique hrounded⟩

/-- `Decimal.of(120).div(1, -1)` is twelve tens, and prints as twelve. -/
theorem div_negative_scale_text :
    ∃ d, (⟨120, 0⟩ : Decimal).div ⟨1, 0⟩ (-1) .halfUp = .ok d ∧ d.value = 120 ∧
      d.toString = "12" ∧ ∀ b scale mode, ¬ ExactAt d b scale mode := by
  refine ⟨⟨12, -1⟩, by decide, by norm_num [value], by decide, ?_⟩
  intro b scale mode h
  obtain ⟨d, hd, -, hs⟩ := h.text
  have hnonneg := scale_nonneg_of_of hd
  rw [hs] at hnonneg
  exact absurd hnonneg (by decide)

end Decimal

end Norbital.Std
