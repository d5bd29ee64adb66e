import Mathlib.Data.List.TakeWhile
import Mathlib.Data.Nat.Digits.Lemmas
import Mathlib.Tactic.Ring
import Norbital.Lib.CodeUnits

/-!
# Numbers as JavaScript writes them

A finite number as its shortest decimal, and the text `Number::toString` writes of it.
The text gives the number back.
-/

/-- `digits` times ten to `exponent`, with no zero at the end of the digits; zero has one form. -/
structure JsNumber where
  negative : Bool
  digits : ℕ
  exponent : ℤ
  shortest : digits % 10 ≠ 0 ∨ digits = 0 ∧ negative = false ∧ exponent = 0
  deriving DecidableEq

namespace JsNumber

/-- The decimal digits of a positive number. -/
def numeral (n : ℕ) : JsString := (Nat.digits 10 n).reverse.map fun d => 48 + d.toUInt16

def magnitude (x : JsNumber) : JsString :=
  let ds := numeral x.digits
  let k : ℤ := ds.length
  let n := x.exponent + k
  if k ≤ n ∧ n ≤ 21 then ds ++ List.replicate (n - k).toNat 48
  else if 0 < n ∧ n ≤ 21 then ds.take n.toNat ++ 46 :: ds.drop n.toNat
  else if -6 < n ∧ n ≤ 0 then 48 :: 46 :: (List.replicate (-n).toNat 48 ++ ds)
  else
    ds.take 1 ++ (if k = 1 then [] else 46 :: ds.drop 1) ++
      101 :: (if n - 1 < 0 then 45 else 43) :: numeral (n - 1).natAbs

def text (x : JsNumber) : JsString :=
  if x.digits = 0 then [48] else (if x.negative then [45] else []) ++ x.magnitude

/-- The number a text of digits spells. -/
def value (ds : JsString) : ℕ := Nat.ofDigits 10 (ds.reverse.map fun c => c.toNat - 48)

def mantissa (t : JsString) : JsString := t.takeWhile (· != 101)

def mantissaDigits (t : JsString) : JsString := (mantissa t).filter (· != 46)

def fraction (t : JsString) : ℕ := ((mantissa t).dropWhile (· != 46)).length - 1

/-- The exponent written after a mantissa. -/
def exponentPart : JsString → ℤ
  | _ :: sign :: ds => if sign = 45 then -value ds else value ds
  | _ => 0

def exponentOf (t : JsString) : ℤ := exponentPart (t.dropWhile (· != 101))

def IsDigit (c : CodeUnit) : Prop := 48 ≤ c ∧ c ≤ 57

def isDigit (c : CodeUnit) : Bool := 48 ≤ c && c ≤ 57

theorem isDigit_iff {c : CodeUnit} : isDigit c = true ↔ IsDigit c := by
  simp [isDigit, IsDigit]

theorem isDigit_of_lt {d : ℕ} (h : d < 10) : IsDigit (48 + d.toUInt16) ∧ (48 + d.toUInt16 : CodeUnit).toNat - 48 = d := by
  interval_cases d <;> exact ⟨⟨by decide, by decide⟩, by decide⟩

theorem isDigit_numeral {n : ℕ} {c : CodeUnit} (h : c ∈ numeral n) : IsDigit c := by
  obtain ⟨d, hd, rfl⟩ := List.mem_map.mp h
  exact (isDigit_of_lt (Nat.digits_lt_base (by decide) (List.mem_reverse.mp hd))).1

theorem IsDigit.ne {c : CodeUnit} (h : IsDigit c) : c ≠ 46 ∧ c ≠ 101 ∧ c ≠ 45 := by
  obtain ⟨hlow, hhigh⟩ := h
  refine ⟨?_, ?_, ?_⟩
  · rintro rfl
    exact absurd hlow (by decide)
  · rintro rfl
    exact absurd hhigh (by decide)
  · rintro rfl
    exact absurd hlow (by decide)

theorem numeral_ne_nil {n : ℕ} (h : n ≠ 0) : numeral n ≠ [] := by
  simpa [numeral] using Nat.digits_ne_nil_iff_ne_zero.mpr h

theorem value_numeral (n : ℕ) : value (numeral n) = n := by
  have hdigits : (numeral n).reverse.map (fun c => c.toNat - 48) = Nat.digits 10 n := by
    rw [numeral, ← List.map_reverse, List.reverse_reverse, List.map_map]
    refine (List.map_congr_left fun d hd => ?_).trans (List.map_id _)
    exact (isDigit_of_lt (Nat.digits_lt_base (by decide) hd)).2
  rw [value, hdigits, Nat.ofDigits_digits]

theorem value_append (a b : JsString) : value (a ++ b) = value b + 10 ^ b.length * value a := by
  rw [value, value, value, List.reverse_append, List.map_append, Nat.ofDigits_append, List.length_map, List.length_reverse]

theorem value_zeros (z : ℕ) : value (List.replicate z 48) = 0 := by
  rw [value, List.reverse_replicate, List.map_replicate]
  induction z with
  | zero => rfl
  | succ z ih =>
    rw [List.replicate_succ, Nat.ofDigits_cons, ih]
    rfl

/-- Nothing follows the mantissa, or the exponent does. -/
def Ends (rest : JsString) : Prop := rest.head?.all (· == 101) = true

theorem split_mantissa {m rest : JsString} (hm : ∀ c ∈ m, c ≠ 101) (hrest : Ends rest) :
    mantissa (m ++ rest) = m ∧ (m ++ rest).dropWhile (· != 101) = rest := by
  have hall : ∀ c ∈ m, (c != 101) = true := fun c hc => bne_iff_ne.mpr (hm c hc)
  rw [mantissa, List.takeWhile_append_of_pos hall, List.dropWhile_append_of_pos hall]
  cases rest with
  | nil => exact ⟨List.append_nil m, rfl⟩
  | cons c rest =>
    obtain rfl : c = 101 := by simpa [Ends] using hrest
    exact ⟨List.append_nil m, rfl⟩

/-- What a text of these parts reads as. -/
structure Reads (t ds : JsString) (places : ℕ) (exponent : ℤ) : Prop where
  digits : mantissaDigits t = ds
  fraction : fraction t = places
  exponent : exponentOf t = exponent

theorem reads_whole {a rest : JsString} (ha : ∀ c ∈ a, IsDigit c) (hrest : Ends rest) :
    Reads (a ++ rest) a 0 (exponentPart rest) := by
  obtain ⟨hm, hexp⟩ := split_mantissa (fun c hc => (ha c hc).ne.2.1) hrest
  have hall : ∀ c ∈ a, (c != 46) = true := fun c hc => bne_iff_ne.mpr (ha c hc).ne.1
  refine ⟨?_, ?_, by rw [exponentOf, hexp]⟩
  · rw [mantissaDigits, hm]
    exact List.filter_eq_self.mpr hall
  · rw [JsNumber.fraction, hm, ← List.append_nil a, List.dropWhile_append_of_pos hall]
    rfl

theorem reads_point {a b rest : JsString} (ha : ∀ c ∈ a, IsDigit c) (hb : ∀ c ∈ b, IsDigit c) (hrest : Ends rest) :
    Reads (a ++ 46 :: b ++ rest) (a ++ b) b.length (exponentPart rest) := by
  have hne : ∀ c ∈ a ++ 46 :: b, c ≠ 101 := by
    intro c hc
    obtain hc | hc := List.mem_append.mp hc
    · exact (ha c hc).ne.2.1
    · obtain rfl | hc := List.mem_cons.mp hc
      · decide
      · exact (hb c hc).ne.2.1
  obtain ⟨hm, hexp⟩ := split_mantissa hne hrest
  have hall : ∀ c ∈ a, (c != 46) = true := fun c hc => bne_iff_ne.mpr (ha c hc).ne.1
  have hall' : ∀ c ∈ b, (c != 46) = true := fun c hc => bne_iff_ne.mpr (hb c hc).ne.1
  refine ⟨?_, ?_, by rw [exponentOf, hexp]⟩
  · rw [mantissaDigits, hm, List.filter_append, List.filter_eq_self.mpr hall, List.filter_cons_of_neg (by decide),
      List.filter_eq_self.mpr hall']
  · rw [JsNumber.fraction, hm, List.dropWhile_append_of_pos hall]
    rfl

theorem exponentPart_sign (i : ℤ) : exponentPart (101 :: (if i < 0 then 45 else 43) :: numeral i.natAbs) = i := by
  rw [exponentPart, value_numeral]
  by_cases hneg : i < 0
  · rw [if_pos hneg, if_pos rfl]
    omega
  · rw [if_neg hneg, if_neg (by decide)]
    omega

theorem isDigit_zeros {z : ℕ} {c : CodeUnit} (h : c ∈ List.replicate z (48 : CodeUnit)) : IsDigit c := by
  rw [List.eq_of_mem_replicate h]
  exact ⟨by decide, by decide⟩

/-- The digits with zeros after them, and the exponent with those taken off. -/
theorem magnitude_spec {x : JsNumber} (hx : x.digits ≠ 0) : ∃ (ds : JsString) (places z : ℕ) (exponent : ℤ),
    Reads x.magnitude ds places exponent ∧ value ds = x.digits * 10 ^ z ∧ exponent - places = x.exponent - z := by
  obtain ⟨ds, hds⟩ : ∃ ds, ds = numeral x.digits := ⟨_, rfl⟩
  have hdigits : ∀ c ∈ ds, IsDigit c := fun c hc => isDigit_numeral (hds ▸ hc)
  have hvalue : value ds = x.digits := by rw [hds, value_numeral]
  have hpos : 0 < ds.length := List.length_pos_of_ne_nil (hds ▸ numeral_ne_nil hx)
  have hempty : Ends [] := rfl
  simp only [magnitude, ← hds]
  by_cases hwhole : (ds.length : ℤ) ≤ x.exponent + ds.length ∧ x.exponent + ds.length ≤ 21
  · rw [if_pos hwhole]
    obtain ⟨z, hz⟩ : ∃ z : ℕ, (x.exponent + ds.length - ds.length).toNat = z := ⟨_, rfl⟩
    rw [hz, ← List.append_nil (ds ++ _)]
    refine ⟨_, _, z, _, reads_whole ?_ hempty, ?_, ?_⟩
    · exact fun c hc => (List.mem_append.mp hc).elim (hdigits c) isDigit_zeros
    · rw [value_append, value_zeros, hvalue, List.length_replicate, Nat.zero_add, Nat.mul_comm]
    · show (0 : ℤ) - (0 : ℕ) = _
      omega
  rw [if_neg hwhole]
  by_cases hpoint : 0 < x.exponent + ds.length ∧ x.exponent + ds.length ≤ 21
  · rw [if_pos hpoint, ← List.append_nil (ds.take _ ++ _)]
    refine ⟨_, _, 0, _, reads_point (fun c hc => hdigits c (List.mem_of_mem_take hc))
      (fun c hc => hdigits c (List.mem_of_mem_drop hc)) hempty, ?_, ?_⟩
    · rw [List.take_append_drop, hvalue, Nat.pow_zero, Nat.mul_one]
    · show (0 : ℤ) - _ = _
      rw [List.length_drop]
      omega
  rw [if_neg hpoint]
  by_cases hsmall : -6 < x.exponent + ds.length ∧ x.exponent + ds.length ≤ 0
  · rw [if_pos hsmall]
    have htext : 48 :: 46 :: (List.replicate (-(x.exponent + ds.length)).toNat 48 ++ ds) =
        [48] ++ 46 :: (List.replicate (-(x.exponent + ds.length)).toNat 48 ++ ds) ++ [] := by simp
    rw [htext]
    refine ⟨_, _, 0, _, reads_point (fun c hc => @isDigit_zeros 1 c hc)
      (fun c hc => (List.mem_append.mp hc).elim isDigit_zeros (hdigits c)) hempty, ?_, ?_⟩
    · rw [value_append, value_append, value_zeros, hvalue]
      show x.digits + _ * 0 + _ * value (List.replicate 1 48) = _
      rw [value_zeros]
      omega
    · show (0 : ℤ) - _ = _
      rw [List.length_append, List.length_replicate]
      omega
  rw [if_neg hsmall]
  have hrest : Ends (101 :: (if x.exponent + ds.length - 1 < 0 then 45 else 43) ::
      numeral (x.exponent + ds.length - 1).natAbs) := rfl
  by_cases hone : (ds.length : ℤ) = 1
  · rw [if_pos hone, List.append_nil]
    have htake : ds.take 1 = ds := List.take_of_length_le (by omega)
    rw [htake]
    refine ⟨_, _, 0, _, reads_whole hdigits hrest, by rw [hvalue, Nat.pow_zero, Nat.mul_one], ?_⟩
    rw [exponentPart_sign]
    omega
  · rw [if_neg hone]
    refine ⟨_, _, 0, _, reads_point (fun c hc => hdigits c (List.mem_of_mem_take hc))
      (fun c hc => hdigits c (List.mem_of_mem_drop hc)) hrest, ?_, ?_⟩
    · rw [List.take_append_drop, hvalue, Nat.pow_zero, Nat.mul_one]
    · rw [exponentPart_sign, List.length_drop]
      omega

/-- The number of a positive text. -/
theorem eq_of_mul_pow {s t z w : ℕ} (hs : s % 10 ≠ 0) (ht : t % 10 ≠ 0) (h : s * 10 ^ z = t * 10 ^ w) : s = t ∧ z = w := by
  induction z generalizing w with
  | zero =>
    cases w with
    | zero => exact ⟨by simpa using h, rfl⟩
    | succ w =>
      rw [Nat.pow_zero, Nat.mul_one, Nat.pow_succ, ← Nat.mul_assoc] at h
      omega
  | succ z ih =>
    cases w with
    | zero =>
      rw [Nat.pow_zero, Nat.mul_one, Nat.pow_succ, ← Nat.mul_assoc] at h
      omega
    | succ w =>
      rw [Nat.pow_succ, Nat.pow_succ, ← Nat.mul_assoc, ← Nat.mul_assoc] at h
      obtain ⟨hst, hzw⟩ := ih (Nat.eq_of_mul_eq_mul_right (by decide) h)
      exact ⟨hst, congrArg Nat.succ hzw⟩

theorem magnitude_inj {x y : JsNumber} (hx : x.digits ≠ 0) (hy : y.digits ≠ 0) (h : x.magnitude = y.magnitude) :
    x.digits = y.digits ∧ x.exponent = y.exponent := by
  obtain ⟨ds, places, z, exponent, hreads, hvalue, hexp⟩ := magnitude_spec hx
  obtain ⟨ds', places', w, exponent', hreads', hvalue', hexp'⟩ := magnitude_spec hy
  rw [h] at hreads
  obtain rfl := hreads.digits.symm.trans hreads'.digits
  obtain rfl := hreads.fraction.symm.trans hreads'.fraction
  obtain rfl := hreads.exponent.symm.trans hreads'.exponent
  obtain ⟨hdigits, rfl⟩ := eq_of_mul_pow (x.shortest.resolve_right fun h => hx h.1)
    (y.shortest.resolve_right fun h => hy h.1) (hvalue.symm.trans hvalue')
  exact ⟨hdigits, by omega⟩

theorem magnitude_head {x : JsNumber} (hx : x.digits ≠ 0) : ∃ c rest, x.magnitude = c :: rest ∧ IsDigit c := by
  obtain ⟨c, ds, hds⟩ := List.exists_cons_of_ne_nil (numeral_ne_nil hx)
  have hc : IsDigit c := isDigit_numeral (hds ▸ List.mem_cons_self)
  simp only [magnitude, hds]
  split_ifs with _ hpoint
  · exact ⟨c, _, rfl, hc⟩
  · obtain ⟨n, hn⟩ : ∃ n, (x.exponent + ((c :: ds).length : ℤ)).toNat = n + 1 :=
      ⟨(x.exponent + ((c :: ds).length : ℤ)).toNat - 1, by omega⟩
    rw [hn]
    exact ⟨c, _, rfl, hc⟩
  · exact ⟨48, _, rfl, by decide, by decide⟩
  all_goals exact ⟨c, _, rfl, hc⟩

def isUnit (c : CodeUnit) : Bool := (48 ≤ c && c ≤ 57) || c == 43 || c == 45 || c == 46 || c == 101

theorem IsDigit.isUnit {c : CodeUnit} (h : IsDigit c) : isUnit c := by
  simp [JsNumber.isUnit, h.1, h.2]

theorem isUnit_of_mem_numeral {n : ℕ} {c : CodeUnit} (h : c ∈ numeral n) : isUnit c := (isDigit_numeral h).isUnit

theorem magnitude_isUnit (x : JsNumber) : ∀ c ∈ x.magnitude, isUnit c := by
  have hnumeral : ∀ n, ∀ c ∈ numeral n, isUnit c := fun n c hc => isUnit_of_mem_numeral hc
  have htake : ∀ n, ∀ c ∈ (numeral x.digits).take n, isUnit c := fun n c hc => hnumeral _ c (List.mem_of_mem_take hc)
  have hdrop : ∀ n, ∀ c ∈ (numeral x.digits).drop n, isUnit c := fun n c hc => hnumeral _ c (List.mem_of_mem_drop hc)
  have hzeros : ∀ z, ∀ c ∈ List.replicate z (48 : CodeUnit), isUnit c := fun z c hc => (isDigit_zeros hc).isUnit
  have hnil : ∀ c ∈ ([] : JsString), isUnit c := fun _ hc => absurd hc List.not_mem_nil
  simp only [magnitude]
  split_ifs <;> simp only [List.forall_mem_append, List.forall_mem_cons]
  · exact ⟨hnumeral _, hzeros _⟩
  · exact ⟨htake _, by decide, hdrop _⟩
  · exact ⟨by decide, by decide, hzeros _, hnumeral _⟩
  · exact ⟨⟨htake _, hnil⟩, by decide, by decide, hnumeral _⟩
  · exact ⟨⟨htake _, hnil⟩, by decide, by decide, hnumeral _⟩
  · exact ⟨⟨htake _, by decide, hdrop _⟩, by decide, by decide, hnumeral _⟩
  · exact ⟨⟨htake _, by decide, hdrop _⟩, by decide, by decide, hnumeral _⟩

theorem text_isUnit (x : JsNumber) : ∀ c ∈ x.text, isUnit c := by
  rw [text]
  split_ifs
  · exact JsString.forall_of_all (by decide)
  · exact List.forall_mem_cons.mpr ⟨by decide, magnitude_isUnit x⟩
  · exact magnitude_isUnit x

/-- A text begins with a digit or a minus sign. -/
theorem text_head (x : JsNumber) : ∃ c rest, x.text = c :: rest ∧ (IsDigit c ∨ c = 45) := by
  rw [text]
  split_ifs with hzero
  · exact ⟨48, [], rfl, .inl ⟨by decide, by decide⟩⟩
  · exact ⟨45, x.magnitude, rfl, .inr rfl⟩
  · obtain ⟨c, rest, h, hc⟩ := magnitude_head hzero
    exact ⟨c, rest, h, .inl hc⟩

theorem text_eq_zero {x : JsNumber} (h : x.text = [48]) : x.digits = 0 := by
  by_contra hx
  rw [text, if_neg hx] at h
  obtain ⟨c, rest, hhead, hc⟩ := magnitude_head hx
  split_ifs at h
  · cases h
  · -- a positive number whose text is a lone zero would be zero
    obtain ⟨ds, places, z, exponent, hreads, hvalue, -⟩ := magnitude_spec hx
    rw [List.nil_append] at h
    rw [h] at hreads
    obtain rfl : [48] = ds := hreads.digits
    have hzero : value [48] = 0 := by decide
    rw [hzero] at hvalue
    exact hx ((Nat.mul_eq_zero.mp hvalue.symm).resolve_right (by positivity))

theorem text_injective : Function.Injective text := by
  intro x y h
  by_cases hx : x.digits = 0
  · have hy : y.digits = 0 := text_eq_zero (h.symm.trans (if_pos hx))
    obtain ⟨-, hxn, hxe⟩ := x.shortest.resolve_left (by simp [hx])
    obtain ⟨-, hyn, hye⟩ := y.shortest.resolve_left (by simp [hy])
    cases x
    cases y
    simp_all
  · have hy : y.digits ≠ 0 := fun hy => hx (text_eq_zero (h.trans (if_pos hy)))
    rw [text, text, if_neg hx, if_neg hy] at h
    obtain ⟨c, rest, hxhead, hc⟩ := magnitude_head hx
    obtain ⟨d, rest', hyhead, hd⟩ := magnitude_head hy
    have hsame : x.negative = y.negative ∧ x.magnitude = y.magnitude := by
      cases hxn : x.negative <;> cases hyn : y.negative <;> rw [hxn, hyn] at h
      · exact ⟨rfl, h⟩
      · rw [hxhead] at h
        exact absurd (List.cons.inj h).1 hc.ne.2.2
      · rw [hyhead] at h
        exact absurd (List.cons.inj h).1.symm hd.ne.2.2
      · exact ⟨rfl, (List.cons.inj h).2⟩
    obtain ⟨hdigits, hexponent⟩ := magnitude_inj hx hy hsame.2
    cases x
    cases y
    simp_all

/-- The zeros a numeral ends with. -/
def zeros (n : ℕ) : List ℕ := (Nat.digits 10 n).takeWhile (· == 0)

/-- A numeral without the zeros at its end. -/
def stripped (n : ℕ) : ℕ := Nat.ofDigits 10 ((Nat.digits 10 n).dropWhile (· == 0))

theorem digits_stripped (n : ℕ) : Nat.digits 10 (stripped n) = (Nat.digits 10 n).dropWhile (· == 0) := by
  have hsuffix := List.dropWhile_suffix (l := Nat.digits 10 n) (· == 0)
  refine Nat.digits_ofDigits 10 (by decide) _ (fun d hd => Nat.digits_lt_base (by decide) (hsuffix.subset hd)) ?_
  intro hne
  rw [hsuffix.getLast hne]
  refine Nat.getLast_digit_ne_zero 10 ?_
  rintro rfl
  exact hne (by simp)

theorem stripped_ne_zero {n : ℕ} (h : n ≠ 0) : stripped n ≠ 0 := by
  intro hzero
  have hdrop : (Nat.digits 10 n).dropWhile (· == 0) = [] := by
    rw [← digits_stripped, hzero, Nat.digits_zero]
  have hall := List.dropWhile_eq_nil_iff.mp hdrop
  refine Nat.getLast_digit_ne_zero 10 h ?_
  exact beq_iff_eq.mp (hall _ (List.getLast_mem (Nat.digits_ne_nil_iff_ne_zero.mpr h)))

theorem stripped_mod {n : ℕ} (h : n ≠ 0) : stripped n % 10 ≠ 0 := by
  have hdigits := digits_stripped n
  rw [Nat.digits_def' (by decide) (Nat.pos_of_ne_zero (stripped_ne_zero h))] at hdigits
  have hhead := List.head?_dropWhile_not (· == 0) (Nat.digits 10 n)
  rw [← hdigits] at hhead
  simpa using hhead

def ofInt (n : ℤ) : JsNumber :=
  if h : n = 0 then ⟨false, 0, 0, by decide⟩
  else ⟨n < 0, stripped n.natAbs, (zeros n.natAbs).length, .inl (stripped_mod (Int.natAbs_ne_zero.mpr h))⟩

theorem numeral_stripped (n : ℕ) : numeral (stripped n) ++ List.replicate (zeros n).length 48 = numeral n := by
  have hzeros : zeros n = List.replicate (zeros n).length 0 := by
    refine List.eq_replicate_of_mem fun d hd => ?_
    rw [zeros] at hd
    exact beq_iff_eq.mp (@List.mem_takeWhile_imp _ (fun e => e == 0) _ _ hd)
  have hsplit : Nat.digits 10 n = zeros n ++ Nat.digits 10 (stripped n) := by
    rw [digits_stripped, zeros, List.takeWhile_append_dropWhile]
  rw [numeral, numeral, hsplit, List.reverse_append, List.map_append, hzeros, List.reverse_replicate, List.map_replicate,
    List.length_replicate]
  rfl

/-- A whole number of at most 21 digits is written in full. -/
theorem text_ofInt {n : ℤ} (hne : n ≠ 0) (h : (numeral n.natAbs).length ≤ 21) :
    (ofInt n).text = (if n < 0 then [45] else []) ++ numeral n.natAbs := by
  have hstripped := stripped_ne_zero (Int.natAbs_ne_zero.mpr hne)
  have hnumeral := numeral_stripped n.natAbs
  have hlength := congrArg List.length hnumeral
  rw [List.length_append, List.length_replicate] at hlength
  have htext : (ofInt n).magnitude = numeral n.natAbs := by
    rw [ofInt, dif_neg hne, magnitude, if_pos ⟨by dsimp only; omega, by dsimp only; omega⟩]
    simp only [add_sub_cancel_right, Int.toNat_natCast, hnumeral]
  have hsign : (ofInt n).negative = decide (n < 0) := by rw [ofInt, dif_neg hne]
  have hdigits : (ofInt n).digits = stripped n.natAbs := by rw [ofInt, dif_neg hne]
  rw [text, hdigits, if_neg hstripped, htext, hsign]
  simp only [decide_eq_true_eq]

theorem length_numeral {n k : ℕ} (h : n < 10 ^ k) : (numeral n).length ≤ k := by
  rw [numeral, List.length_map, List.length_reverse, Nat.digits_length_le_iff (by decide)]
  exact h

example : (JsNumber.mk true 15 (-1) (by decide)).text = .ascii "-1.5" := by decide

end JsNumber
