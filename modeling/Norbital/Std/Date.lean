import Mathlib.Data.String.Basic
import Mathlib.Tactic.IntervalCases
import Norbital.Std.Kind

/-!
# Calendar days and periods

The days and date periods of `std/src/date.ts`: a day is its text `YYYY-MM-DD`,
compared as a text, and a period includes its ends, the last of which may be
open.
-/

namespace Norbital.Std

def digit (n : Nat) : Char := Char.ofNat (48 + n % 10)

def dateChars (year month day : Nat) : List Char :=
  [digit (year / 1000), digit (year / 100), digit (year / 10), digit year, '-', digit (month / 10),
    digit month, '-', digit (day / 10), digit day]

def dateText (year month day : Nat) : String := String.ofList (dateChars year month day)

/-- `addDays(d, -1)` of a calendar day; the day before the first of them prints with a sign. -/
def dayBefore (s : String) : String :=
  let (year, month, day) := dayParts s.toList
  if 1 < day then dateText year month (day - 1)
  else if 1 < month then dateText year (month - 1) (daysInMonth year (month - 1))
  else if 0 < year then dateText (year - 1) 12 31
  else "-000001-12"

theorem digit_toNat (n : Nat) : (digit n).toNat = 48 + n % 10 := by
  have hlt : n % 10 < 10 := Nat.mod_lt n (by decide)
  unfold digit
  interval_cases n % 10 <;> rfl

theorem digit_lt_digit {m n : Nat} : digit m < digit n ↔ m % 10 < n % 10 := by
  show (digit m).toNat < (digit n).toNat ↔ _
  rw [digit_toNat, digit_toNat]
  omega

theorem digit_inj {m n : Nat} : digit m = digit n ↔ m % 10 = n % 10 := by
  rw [← Char.toNat_inj, digit_toNat, digit_toNat]
  omega

theorem isDigit_digit (n : Nat) : (digit n).isDigit := by
  rw [Char.isDigit_iff_toNat, digit_toNat]
  exact ⟨Nat.le_add_right _ _, by show _ ≤ 57; omega⟩

/-- Numbers are compared by all their digits but the last, then by the last. -/
theorem lt_iff_digits (m n : Nat) : m < n ↔ m / 10 < n / 10 ∨ m / 10 = n / 10 ∧ m % 10 < n % 10 := by
  omega

theorem eq_iff_digits (m n : Nat) : m = n ↔ m / 10 = n / 10 ∧ m % 10 = n % 10 := by
  omega

theorem lt_iff_two {m n : Nat} (hm : m < 100) (hn : n < 100) :
    m < n ↔ m / 10 % 10 < n / 10 % 10 ∨ m / 10 % 10 = n / 10 % 10 ∧ m % 10 < n % 10 := by
  rw [lt_iff_digits, Nat.mod_eq_of_lt (by omega : m / 10 < 10), Nat.mod_eq_of_lt (by omega : n / 10 < 10)]

theorem eq_iff_two {m n : Nat} (hm : m < 100) (hn : n < 100) :
    m = n ↔ m / 10 % 10 = n / 10 % 10 ∧ m % 10 = n % 10 := by
  rw [eq_iff_digits, Nat.mod_eq_of_lt (by omega : m / 10 < 10), Nat.mod_eq_of_lt (by omega : n / 10 < 10)]

theorem last_of_two (n : Nat) : n % 100 % 10 = n % 10 := by omega

theorem first_of_two (n : Nat) : n % 100 / 10 % 10 = n / 10 % 10 := by omega

theorem lt_iff_four {m n : Nat} (hm : m < 10000) (hn : n < 10000) :
    m < n ↔ m / 1000 % 10 < n / 1000 % 10 ∨ m / 1000 % 10 = n / 1000 % 10 ∧
      (m / 100 % 10 < n / 100 % 10 ∨ m / 100 % 10 = n / 100 % 10 ∧
        (m / 10 % 10 < n / 10 % 10 ∨ m / 10 % 10 = n / 10 % 10 ∧ m % 10 < n % 10)) := by
  have hsplit : m < n ↔ m / 100 < n / 100 ∨ m / 100 = n / 100 ∧ m % 100 < n % 100 := by omega
  rw [hsplit, lt_iff_two (by omega : m / 100 < 100) (by omega : n / 100 < 100),
    eq_iff_two (by omega : m / 100 < 100) (by omega : n / 100 < 100),
    lt_iff_two (by omega : m % 100 < 100) (by omega)]
  simp only [Nat.div_div_eq_div_mul, Nat.reduceMul, last_of_two, first_of_two]
  tauto

theorem eq_iff_four {m n : Nat} (hm : m < 10000) (hn : n < 10000) :
    m = n ↔ m / 1000 % 10 = n / 1000 % 10 ∧ m / 100 % 10 = n / 100 % 10 ∧ m / 10 % 10 = n / 10 % 10 ∧
      m % 10 = n % 10 := by
  have hsplit : m = n ↔ m / 100 = n / 100 ∧ m % 100 = n % 100 := by omega
  rw [hsplit, eq_iff_two (by omega : m / 100 < 100) (by omega : n / 100 < 100),
    eq_iff_two (by omega : m % 100 < 100) (by omega : n % 100 < 100)]
  simp only [Nat.div_div_eq_div_mul, Nat.reduceMul, last_of_two, first_of_two, and_assoc]

/-- Days are compared as year, month and day. -/
theorem dateText_lt {y m d y' m' d' : Nat} (hy : y < 10000) (hm : m < 100) (hd : d < 100)
    (hy' : y' < 10000) (hm' : m' < 100) (hd' : d' < 100) :
    dateText y m d < dateText y' m' d' ↔ y < y' ∨ y = y' ∧ (m < m' ∨ m = m' ∧ d < d') := by
  unfold dateText dateChars
  rw [String.lt_iff_toList_lt, String.toList_ofList, String.toList_ofList, lt_iff_four hy hy',
    eq_iff_four hy hy', lt_iff_two hm hm', eq_iff_two hm hm', lt_iff_two hd hd']
  simp only [List.cons_lt_cons_iff, digit_lt_digit, digit_inj, lt_self_iff_false, false_or, true_and,
    and_false, or_false]
  tauto

/-- The number four digits spell. -/
theorem digitsValue_four (a b c d : Char) : digitsValue [a, b, c, d] =
    1000 * (a.toNat - 48) + 100 * (b.toNat - 48) + 10 * (c.toNat - 48) + (d.toNat - 48) := by
  simp only [digitsValue, List.foldl_cons, List.foldl_nil]
  omega

theorem digitsValue_two (a b : Char) : digitsValue [a, b] = 10 * (a.toNat - 48) + (b.toNat - 48) := by
  simp only [digitsValue, List.foldl_cons, List.foldl_nil]
  omega

theorem dayParts_dateChars {y m d : Nat} (hy : y < 10000) (hm : m < 100) (hd : d < 100) :
    dayParts (dateChars y m d) = (y, m, d) := by
  unfold dayParts dateChars
  simp only [List.take, List.drop, digitsValue_four, digitsValue_two, digit_toNat, Prod.mk.injEq]
  omega

theorem fits_dateChars (y m d : Nat) : fits dateShape (dateChars y m d) := by
  simp [dateShape, dateChars, fits, List.replicate, isDigit_digit]

/-- A digit is what it spells. -/
theorem eq_digit {c : Char} (h : c.isDigit) {n : Nat} (hn : n % 10 = c.toNat - 48) : c = digit n := by
  rw [Char.isDigit_iff_toNat] at h
  have hlow : 48 ≤ c.toNat := h.1
  rw [← Char.toNat_inj, digit_toNat, hn]
  omega

theorem fits_cons_iff {p : Char → Bool} {ps : List (Char → Bool)} {cs : List Char} :
    fits (p :: ps) cs ↔ ∃ c rest, cs = c :: rest ∧ p c ∧ fits ps rest := by
  cases cs <;> simp [fits]

theorem fits_nil_iff {cs : List Char} : fits [] cs ↔ cs = [] := by
  cases cs <;> simp [fits]

/-- A text in the shape of a date spells its parts. -/
theorem exists_dateChars {cs : List Char} (h : fits dateShape cs) :
    ∃ y m d, y < 10000 ∧ m < 100 ∧ d < 100 ∧ cs = dateChars y m d := by
  simp only [dateShape, List.replicate, List.cons_append, List.nil_append, fits_cons_iff, fits_nil_iff,
    beq_iff_eq] at h
  obtain ⟨a, _, rfl, ha, b, _, rfl, hb, c, _, rfl, hc, e, _, rfl, he, _, _, rfl, rfl, f, _, rfl, hf, g, _, rfl,
    hg, _, _, rfl, rfl, p, _, rfl, hp, q, _, rfl, hq, rfl⟩ := h
  have hval : ∀ c : Char, c.isDigit → c.toNat - 48 < 10 := by
    intro c hc
    rw [Char.isDigit_iff_toNat] at hc
    have hhigh : c.toNat ≤ 57 := hc.2
    omega
  have := hval a ha
  have := hval b hb
  have := hval c hc
  have := hval e he
  have := hval f hf
  have := hval g hg
  have := hval p hp
  have := hval q hq
  refine ⟨digitsValue [a, b, c, e], digitsValue [f, g], digitsValue [p, q], ?_, ?_, ?_, ?_⟩
  · rw [digitsValue_four]
    omega
  · rw [digitsValue_two]
    omega
  · rw [digitsValue_two]
    omega
  · rw [digitsValue_four, digitsValue_two, digitsValue_two, dateChars,
      ← eq_digit ha (by omega), ← eq_digit hb (by omega), ← eq_digit hc (by omega),
      ← eq_digit he (by omega), ← eq_digit hf (by omega), ← eq_digit hg (by omega),
      ← eq_digit hp (by omega), ← eq_digit hq (by omega)]

/-- What follows the sign of a decimal text: digits, then nothing or a point and digits. -/
def Unsigned (cs : List Char) : Prop :=
  isDigits (cs.takeWhile Char.isDigit) = true ∧
    ∀ c rest, cs.dropWhile Char.isDigit = c :: rest → c = '.' ∧ isDigits rest = true

/-- A decimal text is unsigned after its sign, if there is one. -/
theorem unsigned_of_isDecimalText {s : String} (h : isDecimalText s = true) :
    ∃ cs, (s.toList = '-' :: cs ∨ (s.toList = cs ∧ cs.head? ≠ some '-')) ∧ Unsigned cs := by
  rw [isDecimalText] at h
  split at h
  · next cs hcs =>
    rw [Bool.and_eq_true] at h
    refine ⟨cs, .inl hcs, h.1, fun c rest hc => ?_⟩
    simpa [hc] using h.2
  · next hne =>
    rw [Bool.and_eq_true] at h
    refine ⟨s.toList, .inr ⟨rfl, fun hhead => ?_⟩, h.1, fun c rest hc => ?_⟩
    · obtain ⟨cs, hcs⟩ := List.head?_eq_some_iff.1 hhead
      exact hne cs hcs
    · simpa [hc] using h.2

/-- What a date's shape starts with: the four digits of a year, and a dash. -/
theorem year_of_fits {cs : List Char} (h : fits dateShape (cs.take 10) = true) :
    ∃ a b c d rest, cs = a :: b :: c :: d :: '-' :: rest ∧
      ∀ ch ∈ [a, b, c, d], ch.isDigit = true := by
  rcases cs with _ | ⟨a, _ | ⟨b, _ | ⟨c, _ | ⟨d, _ | ⟨e, rest⟩⟩⟩⟩⟩
  case cons.cons.cons.cons.cons =>
    simp only [dateShape, List.replicate, List.cons_append, List.nil_append, List.take_succ_cons, fits,
      Bool.and_eq_true, beq_iff_eq] at h
    obtain ⟨ha, hb, hc, hd, rfl, -⟩ := h
    exact ⟨a, b, c, d, rest, rfl, by simp [ha, hb, hc, hd]⟩
  all_goals simp [dateShape, fits] at h

/-- What starts with a date is no decimal. -/
theorem isDecimalText_of_fits {s : String} (h : fits dateShape (s.toList.take 10) = true) :
    isDecimalText s = false := by
  refine Bool.eq_false_iff.2 fun hdecimal => ?_
  obtain ⟨a, b, c, d, rest, hs, hdigits⟩ := year_of_fits h
  obtain ⟨cs, hsign, -, hrest⟩ := unsigned_of_isDecimalText hdecimal
  obtain hminus | ⟨rfl, -⟩ := hsign
  · -- no minus sign is a digit of the year
    rw [hs] at hminus
    obtain ⟨rfl, -⟩ := List.cons.inj hminus
    exact absurd (hdigits '-' List.mem_cons_self) (by decide)
  · have hdash : s.toList.dropWhile Char.isDigit = '-' :: rest := by
      simp only [List.mem_cons, List.not_mem_nil, or_false, forall_eq_or_imp, forall_eq] at hdigits
      simp [hs, hdigits]
    exact absurd (hrest _ _ hdash).1 (by decide)

theorem daysInMonth_le (y m : Nat) : daysInMonth y m ≤ 31 := by
  unfold daysInMonth
  split_ifs <;> decide

theorem le_daysInMonth (y m : Nat) : 28 ≤ daysInMonth y m := by
  unfold daysInMonth
  split_ifs <;> decide

/-- A calendar day is the text of its parts. -/
theorem isPlainDate_iff {s : String} : isPlainDate s ↔ ∃ y m d, y < 10000 ∧ 1 ≤ m ∧ m ≤ 12 ∧ 1 ≤ d ∧
    d ≤ daysInMonth y m ∧ s = dateText y m d := by
  constructor
  · intro h
    simp only [isPlainDate, Bool.and_eq_true, decide_eq_true_eq] at h
    obtain ⟨hshape, hvalid⟩ := h
    obtain ⟨y, m, d, hy, hm, hd, hs⟩ := exists_dateChars hshape
    rw [hs, dayParts_dateChars hy hm hd] at hvalid
    refine ⟨y, m, d, hy, hvalid.1, hvalid.2.1, hvalid.2.2.1, hvalid.2.2.2, ?_⟩
    rw [dateText, ← hs, String.ofList_toList]
  · rintro ⟨y, m, d, hy, hlow, hhigh, hday, hlast, rfl⟩
    have h31 := daysInMonth_le y m
    rw [isPlainDate, dateText, String.toList_ofList, dayParts_dateChars hy (by omega) (by omega),
      fits_dateChars]
    simp [hlow, hhigh, hday, hlast]

/-- The parts of the day before. -/
theorem dayBefore_dateText {y m d : Nat} (hy : y < 10000) (hm : m < 100) (hd : d < 100) :
    dayBefore (dateText y m d) =
      if 1 < d then dateText y m (d - 1)
      else if 1 < m then dateText y (m - 1) (daysInMonth y (m - 1))
      else if 0 < y then dateText (y - 1) 12 31
      else "-000001-12" := by
  rw [dayBefore, dateText, String.toList_ofList, dayParts_dateChars hy hm hd]

/-- A day with an earlier one has a day before, and every earlier day is at most it. -/
theorem dayBefore_spec {s t : String} (hs : isPlainDate s) (ht : isPlainDate t) (hlt : t < s) :
    isPlainDate (dayBefore s) ∧ dayBefore s < s ∧ t ≤ dayBefore s := by
  obtain ⟨y, m, d, hy, hm, hm', hd, hd', rfl⟩ := isPlainDate_iff.mp hs
  obtain ⟨y', m', d', hy', hn, hn', he, he', rfl⟩ := isPlainDate_iff.mp ht
  have h31 := daysInMonth_le y m
  have h31' := daysInMonth_le y' m'
  rw [dateText_lt hy' (by omega) (by omega) hy (by omega) (by omega)] at hlt
  rw [dayBefore_dateText hy (by omega) (by omega)]
  split_ifs with hday hmonth hyear
  · refine ⟨isPlainDate_iff.mpr ⟨y, m, d - 1, hy, hm, hm', by omega, by omega, rfl⟩, ?_, not_lt.mp ?_⟩
    · rw [dateText_lt hy (by omega) (by omega) hy (by omega) (by omega)]
      omega
    · rw [dateText_lt hy (by omega) (by omega) hy' (by omega) (by omega)]
      omega
  · have hlast := daysInMonth_le y (m - 1)
    have hfirst := le_daysInMonth y (m - 1)
    refine ⟨isPlainDate_iff.mpr ⟨y, m - 1, _, hy, by omega, by omega, by omega, le_rfl, rfl⟩, ?_, not_lt.mp ?_⟩
    · rw [dateText_lt hy (by omega) (by omega) hy (by omega) (by omega)]
      omega
    · rw [dateText_lt hy (by omega) (by omega) hy' (by omega) (by omega)]
      rintro (h | ⟨rfl, h | ⟨rfl, h⟩⟩) <;> omega
  · refine ⟨isPlainDate_iff.mpr ⟨y - 1, 12, 31, by omega, by omega, by omega, by omega, le_rfl, rfl⟩, ?_,
      not_lt.mp ?_⟩
    · rw [dateText_lt (by omega) (by omega) (by omega) hy (by omega) (by omega)]
      omega
    · rw [dateText_lt (by omega) (by omega) (by omega) hy' (by omega) (by omega)]
      omega
  · omega

/-- An inclusive period of dates, `from` and `to`; `none` is open-ended. -/
structure DatePeriod where
  first : String
  last : Option String
  deriving DecidableEq

namespace DatePeriod

/-- What `datePeriod` makes sure of. -/
structure WellFormed (p : DatePeriod) : Prop where
  first : isPlainDate p.first
  last : ∀ t ∈ p.last, isPlainDate t ∧ p.first ≤ t

def contains (p : DatePeriod) (d : String) : Bool :=
  decide (p.first ≤ d) && p.last.all fun t => decide (d ≤ t)

/-- Whether two periods share at least one day. -/
def overlaps (a b : DatePeriod) : Bool :=
  a.last.all (fun t => decide (b.first ≤ t)) && b.last.all fun t => decide (a.first ≤ t)

theorem contains_iff {p : DatePeriod} {d : String} :
    p.contains d ↔ p.first ≤ d ∧ ∀ t ∈ p.last, d ≤ t := by
  unfold contains
  cases p.last <;> simp

theorem overlaps_eq_true_iff {a b : DatePeriod} :
    overlaps a b ↔ (∀ t ∈ a.last, b.first ≤ t) ∧ ∀ t ∈ b.last, a.first ≤ t := by
  unfold overlaps
  cases a.last <;> cases b.last <;> simp

theorem overlaps_comm (a b : DatePeriod) : overlaps a b = overlaps b a := Bool.and_comm _ _

/-- Two periods are apart when one ends before the other starts. -/
theorem overlaps_eq_false_iff {a b : DatePeriod} :
    overlaps a b = false ↔ (∃ t ∈ a.last, t < b.first) ∨ ∃ t ∈ b.last, t < a.first := by
  rw [← Bool.not_eq_true, overlaps_eq_true_iff]
  push Not
  constructor
  · intro h
    by_contra hno
    push Not at hno
    obtain ⟨t, ht, hlt⟩ := h hno.1
    exact absurd hlt (not_lt.mpr (hno.2 t ht))
  · rintro (⟨t, ht, hlt⟩ | h) hall
    · exact absurd hlt (not_lt.mpr (hall t ht))
    · exact h

/-- Two periods overlap when a day is in both. -/
theorem overlaps_iff {a b : DatePeriod} (ha : a.WellFormed) (hb : b.WellFormed) :
    overlaps a b ↔ ∃ d, a.contains d ∧ b.contains d := by
  simp only [overlaps_eq_true_iff, contains_iff]
  constructor
  · rintro ⟨hab, hba⟩
    refine ⟨max a.first b.first, ⟨le_max_left _ _, fun t ht => ?_⟩, le_max_right _ _, fun t ht => ?_⟩
    · exact max_le (ha.last t ht).2 (hab t ht)
    · exact max_le (hba t ht) (hb.last t ht).2
  · rintro ⟨d, ⟨had, had'⟩, hbd, hbd'⟩
    exact ⟨fun t ht => hbd.trans (had' t ht), fun t ht => had.trans (hbd' t ht)⟩

/-- A period that starts no earlier and ends no later. -/
theorem overlaps_of_within {a a' b : DatePeriod} (hfirst : a'.first = a.first)
    (hlast : ∀ t ∈ a.last, ∃ t' ∈ a'.last, t' ≤ t) (h : overlaps a b = false) :
    overlaps a' b = false := by
  rw [overlaps_eq_false_iff] at h ⊢
  obtain ⟨t, ht, hlt⟩ | h := h
  · obtain ⟨t', ht', hle⟩ := hlast t ht
    exact .inl ⟨t', ht', lt_of_le_of_lt hle hlt⟩
  · exact .inr (hfirst ▸ h)

end DatePeriod

end Norbital.Std
