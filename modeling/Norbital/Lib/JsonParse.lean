import Mathlib.Data.List.Nodup
import Norbital.Lib.Entries
import Norbital.Lib.JsonTree

/-!
# JSON texts read

The text `JSON.stringify` writes with an indentation, and the tree `JSON.parse` reads.
A number keeps the decimal it is written as.  What is written is read back.
-/

namespace JsNumber

theorem shortest_zero : (0 : ℕ) % 10 ≠ 0 ∨ (0 : ℕ) = 0 ∧ false = false ∧ (0 : ℤ) = 0 := by
  decide

/-- `digits` times ten to `exponent`, whatever zeros the digits end with. -/
def ofDecimal (negative : Bool) (digits : ℕ) (exponent : ℤ) : JsNumber :=
  if h : digits = 0 then ⟨false, 0, 0, shortest_zero⟩
  else ⟨negative, stripped digits, exponent + (zeros digits).length, .inl (stripped_mod h)⟩

/-- The digits a text begins with, at least one. -/
def readDigits (t : JsString) : Option (JsString × JsString) :=
  if t.takeWhile isDigit = [] then none else some (t.takeWhile isDigit, t.dropWhile isDigit)

/-- The digits before the point: no zero in front of another digit. -/
def readWhole (t : JsString) : Option (JsString × JsString) :=
  (readDigits t).bind fun (ds, rest) => if ds.head? = some 48 ∧ ds ≠ [48] then none else some (ds, rest)

def readFraction : JsString → Option (JsString × JsString)
  | [] => some ([], [])
  | c :: rest => if c = 46 then readDigits rest else some ([], c :: rest)

def readSign : JsString → Bool × JsString
  | [] => (false, [])
  | c :: rest => if c = 45 then (true, rest) else if c = 43 then (false, rest) else (false, c :: rest)

def readExponent : JsString → Option (ℤ × JsString)
  | [] => some (0, [])
  | c :: rest =>
    if c = 101 ∨ c = 69 then
      (readDigits (readSign rest).2).map fun (ds, after) =>
        (if (readSign rest).1 then -(value ds : ℤ) else value ds, after)
    else some (0, c :: rest)

def readMagnitude (negative : Bool) (t : JsString) : Option (JsNumber × JsString) :=
  (readWhole t).bind fun (a, t) => (readFraction t).bind fun (b, t) => (readExponent t).map fun (e, t) =>
    (ofDecimal negative (value (a ++ b)) (e - b.length), t)

def read : JsString → Option (JsNumber × JsString)
  | [] => none
  | c :: rest => if c = 45 then readMagnitude true rest else readMagnitude false (c :: rest)

theorem stripped_mul_pow (n : ℕ) : stripped n * 10 ^ (zeros n).length = n := by
  have hvalue := congrArg value (numeral_stripped n)
  rwa [value_append, value_zeros, value_numeral, value_numeral, List.length_replicate, Nat.zero_add, Nat.mul_comm] at hvalue

theorem ofDecimal_mul_pow {x : JsNumber} (hx : x.digits ≠ 0) (z : ℕ) :
    ofDecimal x.negative (x.digits * 10 ^ z) (x.exponent - z) = x := by
  have hne : x.digits * 10 ^ z ≠ 0 := by positivity
  obtain ⟨hdigits, hzeros⟩ := eq_of_mul_pow (stripped_mod hne) (x.shortest.resolve_right fun h => hx h.1)
    (stripped_mul_pow (x.digits * 10 ^ z))
  rw [ofDecimal, dif_neg hne]
  obtain ⟨negative, digits, exponent, shortest⟩ := x
  simp only [mk.injEq, true_and]
  refine ⟨hdigits, ?_⟩
  rw [hzeros]
  omega

/-- Nothing of a number follows. -/
def Stops (rest : JsString) : Prop := ∀ c ∈ rest.head?, isDigit c = false ∧ c ≠ 46 ∧ c ≠ 101 ∧ c ≠ 69

theorem readDigits_append {ds rest : JsString} (hne : ds ≠ []) (hds : ∀ c ∈ ds, IsDigit c)
    (hrest : ∀ c ∈ rest.head?, isDigit c = false) : readDigits (ds ++ rest) = some (ds, rest) := by
  have hall : ∀ c ∈ ds, isDigit c = true := fun c hc => isDigit_iff.mpr (hds c hc)
  have hsplit : (ds ++ rest).takeWhile isDigit = ds ∧ (ds ++ rest).dropWhile isDigit = rest := by
    rw [List.takeWhile_append_of_pos hall, List.dropWhile_append_of_pos hall]
    cases rest with
    | nil => exact ⟨List.append_nil ds, rfl⟩
    | cons c rest =>
      have hc : isDigit c = false := hrest c rfl
      rw [List.takeWhile_cons, List.dropWhile_cons, hc]
      exact ⟨List.append_nil ds, rfl⟩
  rw [readDigits, hsplit.1, hsplit.2, if_neg hne]

/-- The text of an exponent, nothing when it is zero. -/
def exponentText (e : ℤ) : JsString := if e = 0 then [] else 101 :: (if e < 0 then 45 else 43) :: numeral e.natAbs

def pointText (b : JsString) : JsString := if b = [] then [] else 46 :: b

/-- Digits before a point, digits after it, and an exponent. -/
structure Parts (t a b : JsString) (e : ℤ) : Prop where
  text : t = a ++ (pointText b ++ exponentText e)
  whole : ∀ c ∈ a, IsDigit c
  places : ∀ c ∈ b, IsDigit c
  nonempty : a ≠ []
  zero : ¬(a.head? = some 48 ∧ a ≠ [48])

theorem readSign_exponent (e : ℤ) (t : JsString) : readSign ((if e < 0 then 45 else 43) :: t) = (decide (e < 0), t) := by
  by_cases hneg : e < 0 <;> simp [readSign, hneg]

theorem readExponent_text {e : ℤ} {rest : JsString} (hrest : Stops rest) :
    readExponent (exponentText e ++ rest) = some (e, rest) := by
  by_cases hzero : e = 0
  · rw [exponentText, if_pos hzero, hzero, List.nil_append]
    cases rest with
    | nil => rfl
    | cons c rest =>
      obtain ⟨-, -, hlower, hupper⟩ := hrest c rfl
      exact if_neg (not_or.mpr ⟨hlower, hupper⟩)
  · have hne : numeral e.natAbs ≠ [] := numeral_ne_nil (Int.natAbs_ne_zero.mpr hzero)
    have hdigits := readDigits_append hne (fun c hc => isDigit_numeral hc) fun c hc => (hrest c hc).1
    rw [exponentText, if_neg hzero, List.cons_append, List.cons_append, readExponent, if_pos (.inl rfl), readSign_exponent,
      hdigits]
    simp only [Option.map_some, value_numeral, decide_eq_true_eq, Option.some.injEq, Prod.mk.injEq, and_true]
    split_ifs <;> omega

theorem exponentText_stops (e : ℤ) {rest : JsString} (hrest : Stops rest) :
    ∀ c ∈ (exponentText e ++ rest).head?, isDigit c = false ∧ c ≠ 46 := by
  intro c hc
  rw [exponentText] at hc
  split_ifs at hc with hzero
  · exact ⟨(hrest c hc).1, (hrest c hc).2.1⟩
  all_goals
    obtain rfl : 101 = c := Option.some.inj hc
    exact ⟨by decide, by decide⟩

theorem readFraction_text {b rest : JsString} (hb : ∀ c ∈ b, IsDigit c)
    (hrest : ∀ c ∈ rest.head?, isDigit c = false ∧ c ≠ 46) : readFraction (pointText b ++ rest) = some (b, rest) := by
  rw [pointText]
  split_ifs with hnil
  · rw [hnil, List.nil_append]
    cases rest with
    | nil => rfl
    | cons c rest => exact if_neg (hrest c rfl).2
  · rw [List.cons_append, readFraction, if_pos rfl]
    exact readDigits_append hnil hb fun c hc => (hrest c hc).1

theorem readMagnitude_parts {t a b rest : JsString} {e : ℤ} (h : Parts t a b e) (hrest : Stops rest) (negative : Bool) :
    readMagnitude negative (t ++ rest) = some (ofDecimal negative (value (a ++ b)) (e - b.length), rest) := by
  have hexponent := exponentText_stops e hrest
  have hpoint : ∀ c ∈ (pointText b ++ (exponentText e ++ rest)).head?, isDigit c = false := by
    intro c hc
    rw [pointText] at hc
    split_ifs at hc
    · exact (hexponent c hc).1
    · obtain rfl : 46 = c := Option.some.inj hc
      decide
  have hwhole : readWhole (a ++ (pointText b ++ (exponentText e ++ rest))) = some (a, pointText b ++ (exponentText e ++ rest)) := by
    rw [readWhole, readDigits_append h.nonempty h.whole hpoint]
    exact if_neg h.zero
  rw [h.text, List.append_assoc, List.append_assoc, readMagnitude, hwhole]
  simp only [Option.bind_some]
  rw [readFraction_text h.places hexponent, Option.bind_some, readExponent_text hrest]
  rfl

theorem head_numeral {n : ℕ} (h : n ≠ 0) : (numeral n).head? ≠ some 48 := by
  intro hhead
  rw [numeral, List.head?_map, List.head?_reverse, List.getLast?_eq_some_getLast (Nat.digits_ne_nil_iff_ne_zero.mpr h)] at hhead
  have hlast := Nat.getLast_digit_ne_zero 10 h
  have hlt := Nat.digits_lt_base (m := n) (by decide : 1 < 10) (List.getLast_mem (Nat.digits_ne_nil_iff_ne_zero.mpr h))
  have hvalue := (isDigit_of_lt hlt).2
  rw [Option.map_some, Option.some.injEq] at hhead
  rw [hhead] at hvalue
  exact hlast hvalue.symm

/-- The parts of a positive number's text, and the number they make. -/
theorem magnitude_parts {x : JsNumber} (hx : x.digits ≠ 0) : ∃ (a b : JsString) (z : ℕ) (e : ℤ),
    Parts x.magnitude a b e ∧ value (a ++ b) = x.digits * 10 ^ z ∧ e - b.length = x.exponent - z := by
  obtain ⟨ds, hds⟩ : ∃ ds, ds = numeral x.digits := ⟨_, rfl⟩
  have hdigits : ∀ c ∈ ds, IsDigit c := fun c hc => isDigit_numeral (hds ▸ hc)
  have hvalue : value ds = x.digits := by rw [hds, value_numeral]
  have hne : ds ≠ [] := hds ▸ numeral_ne_nil hx
  have hhead : ds.head? ≠ some 48 := hds ▸ head_numeral hx
  have hpos : 0 < ds.length := List.length_pos_of_ne_nil hne
  simp only [magnitude, ← hds]
  by_cases hwhole : (ds.length : ℤ) ≤ x.exponent + ds.length ∧ x.exponent + ds.length ≤ 21
  · rw [if_pos hwhole]
    -- the digits and zeros after them
    obtain ⟨z, hz⟩ : ∃ z : ℕ, (x.exponent + ds.length - ds.length).toNat = z := ⟨_, rfl⟩
    rw [hz]
    refine ⟨ds ++ List.replicate z 48, [], z, 0, ⟨?_, ?_, ?_, ?_, ?_⟩, ?_, ?_⟩
    · simp [pointText, exponentText]
    · exact fun c hc => (List.mem_append.mp hc).elim (hdigits c) isDigit_zeros
    · simp
    · simp [hne]
    · rw [List.head?_append_of_ne_nil ds hne]
      exact fun h => hhead h.1
    · rw [List.append_nil, value_append, value_zeros, hvalue, List.length_replicate, Nat.zero_add, Nat.mul_comm]
    · rw [List.length_nil]
      omega
  rw [if_neg hwhole]
  by_cases hpoint : 0 < x.exponent + ds.length ∧ x.exponent + ds.length ≤ 21
  · rw [if_pos hpoint]
    -- a point inside the digits
    obtain ⟨n, hn⟩ : ∃ n : ℕ, (x.exponent + ds.length).toNat = n := ⟨_, rfl⟩
    rw [hn]
    have hlength : (ds.drop n).length = ds.length - n := List.length_drop
    have hdrop : ds.drop n ≠ [] := List.ne_nil_of_length_pos (by omega)
    refine ⟨ds.take n, ds.drop n, 0, 0, ⟨?_, ?_, ?_, ?_, ?_⟩, ?_, ?_⟩
    · rw [pointText, if_neg hdrop, exponentText, if_pos rfl, List.append_nil]
    · exact fun c hc => hdigits c (List.mem_of_mem_take hc)
    · exact fun c hc => hdigits c (List.mem_of_mem_drop hc)
    · exact List.ne_nil_of_length_pos (by rw [List.length_take]; omega)
    · rw [List.head?_take, if_neg (by omega)]
      exact fun h => hhead h.1
    · rw [List.take_append_drop, hvalue, Nat.pow_zero, Nat.mul_one]
    · rw [hlength]
      omega
  rw [if_neg hpoint]
  by_cases hsmall : -6 < x.exponent + ds.length ∧ x.exponent + ds.length ≤ 0
  · rw [if_pos hsmall]
    -- `0.` and zeros before the digits
    obtain ⟨n, hn⟩ : ∃ n : ℕ, (-(x.exponent + ds.length)).toNat = n := ⟨_, rfl⟩
    rw [hn]
    refine ⟨[48], List.replicate n 48 ++ ds, 0, 0, ⟨?_, ?_, ?_, by simp, by simp⟩, ?_, ?_⟩
    · rw [pointText, if_neg (by simp [hne]), exponentText, if_pos rfl, List.append_nil]
      rfl
    · exact fun c hc => @isDigit_zeros 1 c hc
    · exact fun c hc => (List.mem_append.mp hc).elim isDigit_zeros (hdigits c)
    · rw [value_append, value_append, value_zeros, hvalue]
      show x.digits + _ * 0 + _ * value (List.replicate 1 48) = _
      rw [value_zeros]
      omega
    · rw [List.length_append, List.length_replicate]
      omega
  rw [if_neg hsmall]
  -- one digit before the point, and an exponent
  have hexponent : x.exponent + ds.length - 1 ≠ 0 := by omega
  refine ⟨ds.take 1, ds.drop 1, 0, x.exponent + ds.length - 1, ⟨?_, ?_, ?_, ?_, ?_⟩, ?_, ?_⟩
  · rw [exponentText, if_neg hexponent, pointText, List.append_assoc]
    by_cases hone : (ds.length : ℤ) = 1
    · have hdrop : ds.drop 1 = [] := List.drop_eq_nil_of_le (by omega)
      rw [if_pos hone, if_pos hdrop]
    · have hdrop : ds.drop 1 ≠ [] := List.ne_nil_of_length_pos (by rw [List.length_drop]; omega)
      rw [if_neg hone, if_neg hdrop]
  · exact fun c hc => hdigits c (List.mem_of_mem_take hc)
  · exact fun c hc => hdigits c (List.mem_of_mem_drop hc)
  · exact List.ne_nil_of_length_pos (by rw [List.length_take]; omega)
  · rw [List.head?_take, if_neg (by decide)]
    exact fun h => hhead h.1
  · rw [List.take_append_drop, hvalue, Nat.pow_zero, Nat.mul_one]
  · rw [List.length_drop]
    omega

theorem read_text (x : JsNumber) {rest : JsString} (hrest : Stops rest) : read (x.text ++ rest) = some (x, rest) := by
  by_cases hx : x.digits = 0
  · obtain ⟨-, hnegative, hexponent⟩ := x.shortest.resolve_left (by simp [hx])
    have hzero : x = ⟨false, 0, 0, shortest_zero⟩ := by
      obtain ⟨negative, digits, exponent, shortest⟩ := x
      simp_all
    have hparts : Parts [48] [48] [] 0 := ⟨rfl, by simp [IsDigit], by simp, by simp, by simp⟩
    rw [text, if_pos hx, hzero]
    exact readMagnitude_parts hparts hrest false
  · obtain ⟨a, b, z, e, hparts, hvalue, hexponent⟩ := magnitude_parts hx
    have hread := fun negative => readMagnitude_parts hparts hrest negative
    rw [hvalue, hexponent] at hread
    rw [text, if_neg hx]
    cases hnegative : x.negative with
    | true =>
      rw [if_pos rfl, List.append_assoc, List.singleton_append, read, if_pos rfl, hread, ← hnegative, ofDecimal_mul_pow hx]
    | false =>
      obtain ⟨c, cs, hhead, hc⟩ := magnitude_head hx
      have hshape : read (x.magnitude ++ rest) = readMagnitude false (x.magnitude ++ rest) := by
        rw [hhead]
        exact if_neg hc.ne.2.2
      rw [if_neg (by decide), List.nil_append, hshape, hread, ← hnegative, ofDecimal_mul_pow hx]

end JsNumber

namespace JsString

def hexValue (c : CodeUnit) : Option ℕ :=
  if 48 ≤ c ∧ c ≤ 57 then some (c.toNat - 48)
  else if 97 ≤ c ∧ c ≤ 102 then some (c.toNat - 87)
  else if 65 ≤ c ∧ c ≤ 70 then some (c.toNat - 55)
  else none

def parseHex : JsString → Option (CodeUnit × JsString)
  | x :: y :: z :: w :: rest =>
    (hexValue x).bind fun x => (hexValue y).bind fun y => (hexValue z).bind fun z => (hexValue w).map fun w =>
      ((4096 * x + 256 * y + 16 * z + w).toUInt16, rest)
  | _ => none

/-- What follows a backslash. -/
def parseEscape : JsString → Option (CodeUnit × JsString)
  | [] => none
  | d :: rest =>
    if d = 117 then parseHex rest
    else if d = 34 ∨ d = 92 ∨ d = 47 ∨ d = 98 ∨ d = 102 ∨ d = 110 ∨ d = 114 ∨ d = 116 then some (unescape d, rest)
    else none

/-- The first unit of a string: no control character stands there as itself. -/
def parseUnit : JsString → Option (CodeUnit × JsString)
  | [] => none
  | c :: rest => if c = 92 then parseEscape rest else if c < 32 then none else some (c, rest)

/-- At most `n` units of a string, up to its closing quote. -/
def parseString : ℕ → JsString → Option (JsString × JsString)
  | 0, _ => none
  | n + 1, t =>
    if t.head? = some 34 then some ([], t.tail)
    else (parseUnit t).bind fun (c, rest) => (parseString n rest).map fun (s, after) => (c :: s, after)

theorem hexValue_hexUnit {n : ℕ} (h : n < 16) : hexValue (hexUnit n) = some n := by
  interval_cases n <;> decide

theorem parseUnit_escapeHex (c : CodeUnit) (rest : JsString) : parseUnit (escapeHex c ++ rest) = some (c, rest) := by
  have hlt := c.toNat_lt
  have hsum : 4096 * (c.toNat / 4096) + 256 * (c.toNat / 256 % 16) + 16 * (c.toNat / 16 % 16) + c.toNat % 16 = c.toNat := by
    omega
  have hhex : parseUnit (escapeHex c ++ rest) = parseHex (hexUnit (c.toNat / 4096) :: hexUnit (c.toNat / 256 % 16) ::
      hexUnit (c.toNat / 16 % 16) :: hexUnit (c.toNat % 16) :: rest) := rfl
  rw [hhex, parseHex, hexValue_hexUnit (by omega), hexValue_hexUnit (by omega), hexValue_hexUnit (by omega),
    hexValue_hexUnit (by omega)]
  simp only [Option.bind_some, Option.map_some, hsum]
  simp

theorem parseUnit_raw {c : CodeUnit} (h : c ≠ 92) (hcontrol : ¬c < 32) (rest : JsString) :
    parseUnit (c :: rest) = some (c, rest) := by
  rw [parseUnit, if_neg h, if_neg hcontrol]

theorem parseUnit_escapeUnit (c : CodeUnit) (rest : JsString) : parseUnit (escapeUnit c ++ rest) = some (c, rest) := by
  rw [escapeUnit]
  split_ifs with h₁ h₂ h₃ h₄ h₅ h₆ h₇ h₈
  · rw [h₁]; rfl
  · rw [h₂]; rfl
  · rw [h₃]; rfl
  · rw [h₄]; rfl
  · rw [h₅]; rfl
  · rw [h₆]; rfl
  · rw [h₇]; rfl
  · exact parseUnit_escapeHex c rest
  · exact parseUnit_raw h₂ (fun h => h₈ (.inl h)) rest

theorem surrogate_not_control {c : CodeUnit} (h : isHigh c = true ∨ isLow c = true) : ¬c < 32 := by
  intro hc
  have hbound : (0xD800 : CodeUnit) ≤ c := by
    obtain h | h := h
    · exact of_decide_eq_true (Bool.and_eq_true_iff.mp h).1
    · exact UInt16.le_trans (by decide) (of_decide_eq_true (Bool.and_eq_true_iff.mp h).1)
  exact absurd (UInt16.lt_of_le_of_lt hbound hc) (by decide)

theorem parseString_unit {n : ℕ} {t rest s after : JsString} {c : CodeUnit} (hhead : t.head? ≠ some 34)
    (hunit : parseUnit t = some (c, rest)) (hrest : parseString n rest = some (s, after)) :
    parseString (n + 1) t = some (c :: s, after) := by
  rw [parseString, if_neg hhead, hunit]
  show (parseString n rest).map _ = _
  rw [hrest]
  rfl

theorem parseString_escaped {n : ℕ} {s : JsString} (hn : s.length < n) (rest : JsString) :
    parseString n (escaped s ++ 34 :: rest) = some (s, rest) := by
  induction s using escaped.induct generalizing n with
  | case1 =>
    obtain ⟨n, rfl⟩ := Nat.exists_eq_add_one_of_ne_zero (Nat.ne_zero_of_lt hn)
    rfl
  | case2 c =>
    rw [List.length_singleton] at hn
    obtain ⟨n, rfl⟩ : ∃ m, n = m + 1 + 1 := ⟨n - 2, by omega⟩
    exact parseString_unit (escapeUnit_head c _) (parseUnit_escapeUnit c _) rfl
  | case3 c d s hpair ih =>
    obtain ⟨hhigh, hlow⟩ := Bool.and_eq_true_iff.mp hpair
    rw [List.length_cons, List.length_cons] at hn
    obtain ⟨n, rfl⟩ : ∃ m, n = m + 1 + 1 := ⟨n - 2, by omega⟩
    have hc := surrogate_ne (.inl hhigh)
    have hd := surrogate_ne (.inr hlow)
    rw [escaped, if_pos hpair]
    refine parseString_unit ?_ (parseUnit_raw hc.1 (surrogate_not_control (.inl hhigh)) _)
      (parseString_unit ?_ (parseUnit_raw hd.1 (surrogate_not_control (.inr hlow)) _) (ih (by omega)))
    · exact fun h => hc.2 (Option.some.inj h)
    · exact fun h => hd.2 (Option.some.inj h)
  | case4 c d s hpair ih =>
    obtain ⟨n, rfl⟩ := Nat.exists_eq_add_one_of_ne_zero (Nat.ne_zero_of_lt hn)
    rw [escaped, if_neg hpair, List.append_assoc]
    exact parseString_unit (escapeUnit_head c _) (parseUnit_escapeUnit c _) (ih (by simpa using hn))

theorem length_le_escaped (s : JsString) : s.length ≤ (escaped s).length := by
  have hunit : ∀ c : CodeUnit, 1 ≤ (escapeUnit c).length := by
    intro c
    rw [escapeUnit, escapeHex]
    split_ifs <;> simp
  induction s using escaped.induct with
  | case1 => exact Nat.le_refl 0
  | case2 c => exact hunit c
  | case3 c d s hpair ih =>
    rw [escaped, if_pos hpair]
    simp only [List.length_cons]
    omega
  | case4 c d s hpair ih =>
    rw [escaped, if_neg hpair, List.length_append, List.length_cons]
    have := hunit c
    omega

end JsString

namespace JsonTree

/-- A new line, indented. -/
def line (d : ℕ) : JsString := 10 :: List.replicate d 9

mutual

/-- `JSON.stringify` with a tab for each level, from a depth on. -/
def pretty (d : ℕ) : JsonTree → JsString
  | .null => .ascii "null"
  | .bool true => .ascii "true"
  | .bool false => .ascii "false"
  | .number n => n.text
  | .string s => s.quoted
  | .array [] => [91, 93]
  | .array (t :: ts) => 91 :: (line (d + 1) ++ (pretty (d + 1) t ++ prettyItems d ts))
  | .object [] => [123, 125]
  | .object ((k, t) :: ms) => 123 :: (line (d + 1) ++ (k.quoted ++ 58 :: 32 :: (pretty (d + 1) t ++ prettyMembers d ms)))

/-- The items after the first, and the closing bracket. -/
def prettyItems (d : ℕ) : List JsonTree → JsString
  | [] => line d ++ [93]
  | t :: ts => 44 :: (line (d + 1) ++ (pretty (d + 1) t ++ prettyItems d ts))

def prettyMembers (d : ℕ) : List (JsString × JsonTree) → JsString
  | [] => line d ++ [125]
  | (k, t) :: ms => 44 :: (line (d + 1) ++ (k.quoted ++ 58 :: 32 :: (pretty (d + 1) t ++ prettyMembers d ms)))

end

def isSpace (c : CodeUnit) : Bool := c == 32 || c == 9 || c == 10 || c == 13

def skip (t : JsString) : JsString := t.dropWhile isSpace

def readWord (word : JsString) (tree : JsonTree) (t : JsString) : Option (JsonTree × JsString) :=
  if word <+: t then some (tree, t.drop word.length) else none

/-- A string in quotes, after spaces. -/
def readQuoted (t : JsString) : Option (JsString × JsString) :=
  match skip t with
  | [] => none
  | c :: rest => if c = 34 then JsString.parseString (rest.length + 1) rest else none

/-- A key and its colon. -/
def readKey (t : JsString) : Option (JsString × JsString) :=
  (readQuoted t).bind fun (k, t) => match skip t with
    | [] => none
    | c :: rest => if c = 58 then some (k, rest) else none

/-- The members of an object, a key that is written again set again. -/
def collapse (members : List (JsString × JsonTree)) : List (JsString × JsonTree) :=
  members.foldl (fun ms m => Norbital.Lib.put m.1 m.2 ms) []

mutual

/-- The first value of a text, nested at most `n` deep and wide. -/
def parseValue : ℕ → JsString → Option (JsonTree × JsString)
  | 0, _ => none
  | n + 1, t =>
    match skip t with
    | [] => none
    | c :: rest =>
      if c = 34 then (readQuoted (c :: rest)).map fun (s, t) => (.string s, t)
      else if c = 91 then
        if (skip rest).head? = some 93 then some (.array [], (skip rest).tail)
        else (parseItems n rest).map fun (ts, t) => (.array ts, t)
      else if c = 123 then
        if (skip rest).head? = some 125 then some (.object [], (skip rest).tail)
        else (parseMembers n rest).map fun (ms, t) => (.object (collapse ms), t)
      else if c = 110 then readWord (.ascii "null") .null (c :: rest)
      else if c = 116 then readWord (.ascii "true") (.bool true) (c :: rest)
      else if c = 102 then readWord (.ascii "false") (.bool false) (c :: rest)
      else (JsNumber.read (c :: rest)).map fun (x, t) => (.number x, t)

/-- The items up to the closing bracket. -/
def parseItems : ℕ → JsString → Option (List JsonTree × JsString)
  | 0, _ => none
  | n + 1, t => (parseValue n t).bind fun (v, t) => match skip t with
    | [] => none
    | c :: rest =>
      if c = 93 then some ([v], rest)
      else if c = 44 then (parseItems n rest).map fun (vs, t) => (v :: vs, t)
      else none

def parseMembers : ℕ → JsString → Option (List (JsString × JsonTree) × JsString)
  | 0, _ => none
  | n + 1, t => (readKey t).bind fun (k, t) => (parseValue n t).bind fun (v, t) => match skip t with
    | [] => none
    | c :: rest =>
      if c = 125 then some ([(k, v)], rest)
      else if c = 44 then (parseMembers n rest).map fun (ms, t) => ((k, v) :: ms, t)
      else none

end

/-- `JSON.parse`. -/
def parse (t : JsString) : Option JsonTree :=
  (parseValue (t.length + 1) t).bind fun (v, rest) => if skip rest = [] then some v else none

mutual

/-- No object holds a key twice. -/
def Distinct : JsonTree → Prop
  | .array items => DistinctItems items
  | .object members => (members.map Prod.fst).Nodup ∧ DistinctMembers members
  | _ => True

def DistinctItems : List JsonTree → Prop
  | [] => True
  | t :: ts => t.Distinct ∧ DistinctItems ts

def DistinctMembers : List (JsString × JsonTree) → Prop
  | [] => True
  | (_, t) :: ms => t.Distinct ∧ DistinctMembers ms

end

mutual

/-- The steps a tree takes to read. -/
def weight : JsonTree → ℕ
  | .array items => 1 + weightItems items
  | .object members => 1 + weightMembers members
  | _ => 1

def weightItems : List JsonTree → ℕ
  | [] => 0
  | t :: ts => 1 + t.weight + weightItems ts

def weightMembers : List (JsString × JsonTree) → ℕ
  | [] => 0
  | (_, t) :: ms => 1 + t.weight + weightMembers ms

end

theorem put_of_not_mem {k : JsString} {t : JsonTree} {ms : List (JsString × JsonTree)} (h : k ∉ ms.map Prod.fst) :
    Norbital.Lib.put k t ms = ms ++ [(k, t)] := by
  induction ms with
  | nil => rfl
  | cons m ms ih =>
    obtain ⟨j, u⟩ := m
    rw [List.map_cons, List.mem_cons, not_or] at h
    rw [Norbital.Lib.put, beq_false_of_ne (Ne.symm h.1), if_neg Bool.false_ne_true, ih h.2]
    rfl

/-- Keys that are distinct are each set once. -/
theorem collapse_eq {ms : List (JsString × JsonTree)} (h : (ms.map Prod.fst).Nodup) : collapse ms = ms := by
  have hfold : ∀ (ns ks : List (JsString × JsonTree)), ((ks ++ ns).map Prod.fst).Nodup →
      ns.foldl (fun ms m => Norbital.Lib.put m.1 m.2 ms) ks = ks ++ ns := by
    intro ns
    induction ns with
    | nil => exact fun ks _ => (List.append_nil ks).symm
    | cons n ns ih =>
      intro ks hks
      have hnew : n.1 ∉ ks.map Prod.fst := by
        rw [List.map_append, List.nodup_append] at hks
        exact fun hmem => hks.2.2 n.1 hmem n.1 List.mem_cons_self rfl
      rw [List.foldl_cons, put_of_not_mem hnew, ih (ks ++ [n]) (by rwa [List.append_assoc, List.singleton_append]),
        List.append_assoc, List.singleton_append]
  exact hfold ms [] h

theorem skip_cons {c : CodeUnit} (h : isSpace c = false) (t : JsString) : skip (c :: t) = c :: t := by
  rw [skip, List.dropWhile_cons, h, if_neg Bool.false_ne_true]

theorem skip_space {c : CodeUnit} (h : isSpace c = true) (t : JsString) : skip (c :: t) = skip t := by
  rw [skip, List.dropWhile_cons, h, if_pos rfl, skip]

theorem skip_line (d : ℕ) (t : JsString) : skip (line d ++ t) = skip t := by
  rw [line, List.cons_append, skip_space rfl]
  induction d with
  | zero => rfl
  | succ d ih => rw [List.replicate_succ, List.cons_append, skip_space rfl, ih]

/-- The first unit of a tree's text. -/
theorem exists_pretty (d : ℕ) (t : JsonTree) : ∃ c rest, t.pretty d = c :: rest ∧ tagOf c = t.tag := by
  cases t with
  | null => exact ⟨_, _, rfl, rfl⟩
  | bool b => cases b <;> exact ⟨_, _, rfl, rfl⟩
  | number n => exact exists_text (.number n)
  | string s => exact ⟨_, _, rfl, rfl⟩
  | array items => cases items <;> exact ⟨_, _, rfl, rfl⟩
  | object members =>
    cases members with
    | nil => exact ⟨_, _, rfl, rfl⟩
    | cons m ms =>
      obtain ⟨k, t⟩ := m
      exact ⟨_, _, rfl, rfl⟩

/-- No tree's text begins with a space or a bracket that closes. -/
theorem skip_pretty (d : ℕ) (t : JsonTree) (x : JsString) :
    skip (t.pretty d ++ x) = t.pretty d ++ x ∧ ∀ c, tagOf c = 6 → (t.pretty d ++ x).head? ≠ some c := by
  obtain ⟨c, rest, htext, hc⟩ := t.exists_pretty d
  have htag := t.tag_lt
  rw [htext, List.cons_append]
  constructor
  · apply skip_cons
    by_contra hspace
    have hspace : isSpace c = true := by simpa using hspace
    have hsix : tagOf c = 6 := by
      simp only [isSpace, Bool.or_eq_true, beq_iff_eq] at hspace
      obtain ((rfl | rfl) | rfl) | rfl := hspace <;> rfl
    omega
  · intro e he hhead
    obtain rfl : c = e := Option.some.inj hhead
    omega

theorem readQuoted_quoted {u rest : JsString} {s : JsString} (hu : skip u = s.quoted ++ rest) : readQuoted u = some (s, rest) := by
  have htext : s.quoted ++ rest = 34 :: (s.escaped ++ 34 :: rest) := by simp [JsString.quoted]
  rw [readQuoted, hu, htext]
  refine (if_pos rfl).trans (JsString.parseString_escaped ?_ rest)
  have := s.length_le_escaped
  rw [List.length_append]
  omega

theorem readKey_quoted {u rest : JsString} {k : JsString} (hu : skip u = k.quoted ++ 58 :: rest) : readKey u = some (k, rest) := by
  rw [readKey, readQuoted_quoted hu]
  rfl

theorem stops_prettyItems (d : ℕ) (ts : List JsonTree) (rest : JsString) : JsNumber.Stops (prettyItems d ts ++ rest) := by
  intro c hc
  cases ts <;> cases hc <;> exact ⟨by decide, by decide, by decide, by decide⟩

theorem stops_prettyMembers (d : ℕ) (ms : List (JsString × JsonTree)) (rest : JsString) :
    JsNumber.Stops (prettyMembers d ms ++ rest) := by
  intro c hc
  cases ms <;> cases hc <;> exact ⟨by decide, by decide, by decide, by decide⟩

theorem weight_pos (t : JsonTree) : 0 < t.weight := by
  cases t <;> simp [weight]

mutual

theorem parseValue_pretty : (t : JsonTree) → {n d : ℕ} → {u rest : JsString} → t.weight ≤ n → t.Distinct →
    JsNumber.Stops rest → skip u = t.pretty d ++ rest → parseValue n u = some (t, rest)
  | t, 0, _, _, _, hn, _, _, _ => absurd hn (Nat.not_le.mpr t.weight_pos)
  | .null, n + 1, d, u, rest, _, _, _, hu => by
    rw [parseValue, hu]
    rfl
  | .bool b, n + 1, d, u, rest, _, _, _, hu => by
    rw [parseValue, hu]
    cases b <;> rfl
  | .number x, n + 1, d, u, rest, _, _, hrest, hu => by
    obtain ⟨c, tail, htext, hc⟩ := x.text_head
    have hne : c ≠ 34 ∧ c ≠ 91 ∧ c ≠ 123 ∧ c ≠ 110 ∧ c ≠ 116 ∧ c ≠ 102 := by
      refine ⟨?_, ?_, ?_, ?_, ?_, ?_⟩ <;> rintro rfl <;> exact absurd hc (by simp [JsNumber.IsDigit])
    have hread := x.read_text hrest
    rw [pretty] at hu
    rw [htext] at hu hread
    rw [parseValue, hu]
    simp only [List.cons_append] at hread ⊢
    rw [if_neg hne.1, if_neg hne.2.1, if_neg hne.2.2.1, if_neg hne.2.2.2.1, if_neg hne.2.2.2.2.1, if_neg hne.2.2.2.2.2, hread]
    rfl
  | .string s, n + 1, d, u, rest, _, _, _, hu => by
    have hread := readQuoted_quoted (u := s.quoted ++ rest) (skip_pretty d (.string s) rest).1
    rw [parseValue, hu]
    show (readQuoted (s.quoted ++ rest)).map _ = _
    rw [hread]
    rfl
  | .array [], n + 1, d, u, rest, _, _, _, hu => by
    rw [parseValue, hu]
    rfl
  | .array (t :: ts), n + 1, d, u, rest, hn, ht, hrest, hu => by
    rw [weight] at hn
    have hskip : skip (line (d + 1) ++ (t.pretty (d + 1) ++ prettyItems d ts) ++ rest) =
        t.pretty (d + 1) ++ (prettyItems d ts ++ rest) := by
      rw [List.append_assoc, skip_line, List.append_assoc]
      exact (skip_pretty (d + 1) t _).1
    have hitems := parseItems_pretty (t :: ts) (show weightItems (t :: ts) ≤ n by omega) ht rfl hskip
    have hclose := (skip_pretty (d + 1) t (prettyItems d ts ++ rest)).2 93 rfl
    rw [← hskip] at hclose
    rw [parseValue, hu, pretty]
    simp only [List.cons_append]
    rw [if_neg (by decide), if_pos trivial, if_neg hclose, hitems]
    rfl
  | .object [], n + 1, d, u, rest, _, _, _, hu => by
    rw [parseValue, hu]
    rfl
  | .object ((k, t) :: ms), n + 1, d, u, rest, hn, ht, hrest, hu => by
    rw [weight] at hn
    have hskip : skip (line (d + 1) ++ (k.quoted ++ 58 :: 32 :: (t.pretty (d + 1) ++ prettyMembers d ms)) ++ rest) =
        k.quoted ++ 58 :: 32 :: (t.pretty (d + 1) ++ (prettyMembers d ms ++ rest)) := by
      rw [List.append_assoc, skip_line]
      simp only [JsString.quoted, List.append_assoc, List.cons_append]
      exact skip_cons rfl _
    have hmembers := parseMembers_pretty ((k, t) :: ms) (show weightMembers ((k, t) :: ms) ≤ n by omega) ht.2 rfl hskip
    have hclose : (skip (line (d + 1) ++ (k.quoted ++ 58 :: 32 :: (t.pretty (d + 1) ++ prettyMembers d ms)) ++ rest)).head? ≠
        some 125 := by
      rw [hskip]
      exact fun h => absurd (Option.some.inj h) (by decide)
    rw [parseValue, hu, pretty]
    simp only [List.cons_append]
    rw [if_neg (by decide), if_neg (by decide), if_pos trivial, if_neg hclose, hmembers, Option.map_some, collapse_eq ht.1]

theorem parseItems_pretty : (ts : List JsonTree) → {n d : ℕ} → {u rest : JsString} → {t : JsonTree} → {more : List JsonTree} →
    weightItems ts ≤ n → DistinctItems ts → ts = t :: more →
    skip u = t.pretty (d + 1) ++ (prettyItems d more ++ rest) → parseItems n u = some (ts, rest)
  | [], _, _, _, _, _, _, _, _, h, _ => by cases h
  | _ :: _, 0, _, _, _, _, _, hn, _, _, _ => by
    rw [weightItems] at hn
    omega
  | t :: ts, n + 1, d, u, rest, _, _, hn, ht, rfl, hu => by
    rw [weightItems] at hn
    rw [parseItems, parseValue_pretty t (by omega) ht.1 (stops_prettyItems d ts rest) hu]
    cases ts with
    | nil =>
      have hskip : skip (prettyItems d [] ++ rest) = 93 :: rest := by
        rw [prettyItems, List.append_assoc, skip_line]
        exact skip_cons rfl rest
      simp only [Option.bind_some, hskip]
      exact if_pos trivial
    | cons t' ts =>
      have hcomma : skip (prettyItems d (t' :: ts) ++ rest) =
          44 :: (line (d + 1) ++ (t'.pretty (d + 1) ++ prettyItems d ts) ++ rest) := skip_cons rfl _
      have hskip : skip (line (d + 1) ++ (t'.pretty (d + 1) ++ prettyItems d ts) ++ rest) =
          t'.pretty (d + 1) ++ (prettyItems d ts ++ rest) := by
        rw [List.append_assoc, skip_line, List.append_assoc]
        exact (skip_pretty (d + 1) t' _).1
      have hmore := parseItems_pretty (t' :: ts) (show weightItems (t' :: ts) ≤ n by omega) ht.2 rfl hskip
      simp only [Option.bind_some, hcomma, hmore]
      rfl

theorem parseMembers_pretty : (ms : List (JsString × JsonTree)) → {n d : ℕ} → {u rest : JsString} → {k : JsString} →
    {t : JsonTree} → {more : List (JsString × JsonTree)} → weightMembers ms ≤ n → DistinctMembers ms → ms = (k, t) :: more →
    skip u = k.quoted ++ 58 :: 32 :: (t.pretty (d + 1) ++ (prettyMembers d more ++ rest)) → parseMembers n u = some (ms, rest)
  | [], _, _, _, _, _, _, _, _, _, h, _ => by cases h
  | (_, _) :: _, 0, _, _, _, _, _, _, hn, _, _, _ => by
    rw [weightMembers] at hn
    omega
  | (k, t) :: ms, n + 1, d, u, rest, _, _, _, hn, ht, rfl, hu => by
    rw [weightMembers] at hn
    have hvalue : skip (32 :: (t.pretty (d + 1) ++ (prettyMembers d ms ++ rest))) =
        t.pretty (d + 1) ++ (prettyMembers d ms ++ rest) := by
      rw [skip_space rfl]
      exact (skip_pretty (d + 1) t _).1
    have hread := parseValue_pretty t (show t.weight ≤ n by omega) ht.1 (stops_prettyMembers d ms rest) hvalue
    rw [parseMembers, readKey_quoted hu]
    simp only [Option.bind_some, hread]
    cases ms with
    | nil =>
      have hskip : skip (prettyMembers d [] ++ rest) = 125 :: rest := by
        rw [prettyMembers, List.append_assoc, skip_line]
        exact skip_cons rfl rest
      simp only [hskip]
      exact if_pos trivial
    | cons m ms =>
      obtain ⟨k', t'⟩ := m
      have hcomma : skip (prettyMembers d ((k', t') :: ms) ++ rest) =
          44 :: (line (d + 1) ++ (k'.quoted ++ 58 :: 32 :: (t'.pretty (d + 1) ++ prettyMembers d ms)) ++ rest) := skip_cons rfl _
      have hskip : skip (line (d + 1) ++ (k'.quoted ++ 58 :: 32 :: (t'.pretty (d + 1) ++ prettyMembers d ms)) ++ rest) =
          k'.quoted ++ 58 :: 32 :: (t'.pretty (d + 1) ++ (prettyMembers d ms ++ rest)) := by
        rw [List.append_assoc, skip_line]
        simp only [JsString.quoted, List.append_assoc, List.cons_append]
        exact skip_cons rfl _
      have hmore := parseMembers_pretty ((k', t') :: ms) (show weightMembers ((k', t') :: ms) ≤ n by omega) ht.2 rfl hskip
      simp only [hcomma, hmore]
      rfl

end

mutual

theorem weight_le : (t : JsonTree) → (d : ℕ) → t.weight ≤ (t.pretty d).length
  | .null, _ => Nat.succ_le_succ (Nat.zero_le _)
  | .bool b, _ => by cases b <;> exact Nat.succ_le_succ (Nat.zero_le _)
  | .number x, d => by
    obtain ⟨c, rest, htext, -⟩ := exists_pretty d (.number x)
    rw [htext]
    exact Nat.succ_le_succ (Nat.zero_le _)
  | .string s, d => Nat.succ_le_succ (Nat.zero_le _)
  | .array [], _ => Nat.succ_le_succ (Nat.zero_le _)
  | .array (t :: ts), d => by
    have ht := weight_le t (d + 1)
    have hts := weightItems_le ts d
    simp only [weight, weightItems, pretty, line, List.length_cons, List.length_append]
    omega
  | .object [], _ => Nat.succ_le_succ (Nat.zero_le _)
  | .object ((k, t) :: ms), d => by
    have ht := weight_le t (d + 1)
    have hms := weightMembers_le ms d
    simp only [weight, weightMembers, pretty, line, List.length_cons, List.length_append]
    omega

theorem weightItems_le : (ts : List JsonTree) → (d : ℕ) → weightItems ts ≤ (prettyItems d ts).length
  | [], _ => Nat.zero_le _
  | t :: ts, d => by
    have ht := weight_le t (d + 1)
    have hts := weightItems_le ts d
    simp only [weightItems, prettyItems, List.length_cons, List.length_append]
    omega

theorem weightMembers_le : (ms : List (JsString × JsonTree)) → (d : ℕ) → weightMembers ms ≤ (prettyMembers d ms).length
  | [], _ => Nat.zero_le _
  | (k, t) :: ms, d => by
    have ht := weight_le t (d + 1)
    have hms := weightMembers_le ms d
    simp only [weightMembers, prettyMembers, List.length_cons, List.length_append]
    omega

end

/-- A tree whose objects hold each key once is read from its text and the spaces after it. -/
theorem parse_pretty {t : JsonTree} (h : t.Distinct) {spaces : JsString} (hspaces : ∀ c ∈ spaces, isSpace c = true) :
    parse (t.pretty 0 ++ spaces) = some t := by
  have hweight := t.weight_le 0
  have hstops : JsNumber.Stops spaces := by
    intro c hc
    have hspace := hspaces c (List.mem_of_mem_head? hc)
    simp only [isSpace, Bool.or_eq_true, beq_iff_eq] at hspace
    obtain ((rfl | rfl) | rfl) | rfl := hspace <;> exact ⟨by decide, by decide, by decide, by decide⟩
  have hvalue := @parseValue_pretty t ((t.pretty 0 ++ spaces).length + 1) 0 (t.pretty 0 ++ spaces) spaces
    (by rw [List.length_append]; omega) h hstops (skip_pretty 0 t spaces).1
  have hskip : skip spaces = [] := List.dropWhile_eq_nil_iff.mpr hspaces
  rw [parse, hvalue]
  exact if_pos hskip

end JsonTree
