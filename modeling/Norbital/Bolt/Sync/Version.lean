import Mathlib.Algebra.Order.Floor.Ring
import Mathlib.Data.Rat.Floor
import Mathlib.Data.List.TakeWhile
import Norbital.Std.Decimal
import Norbital.Std.Date

/-!
# Remote versions

`remoteVersionNewer` of `bolt/src/engine/sync/read.ts`: which of two versions of a remote
row is newer.  Numbers are compared as exact decimals and instants by what `Date.parse`
makes of them, which is whole milliseconds.

`Date.parse` is a parameter: of an ISO instant it answers the millisecond the instant is in.
-/

namespace Norbital.Bolt.Sync

open Norbital.Std Norbital.Lib

/-- `/^\d{4}-\d{2}-\d{2}/`. -/
def startsWithDate (s : String) : Bool := fits dateShape (s.toList.take 10)

/-- `remoteVersionNewer`.  `dec` throws on no text of the decimal form. -/
def remoteVersionNewer (dateParse : String → Option ℤ) (a b : String) : Bool :=
  if a = b then false
  else if isDecimalText a && isDecimalText b then
    match Decimal.of a, Decimal.of b with
    | .ok x, .ok y => x.cmp y = .gt
    | _, _ => false
  else
    match startsWithDate a, startsWithDate b, dateParse a, dateParse b with
    | true, true, some x, some y => decide (y < x)
    | _, _, _, _ => true

/-- The days from the first of January of the year zero to a calendar day. -/
def dayNumber (year month day : Nat) : Nat :=
  365 * year + (year + 3) / 4 - (year + 99) / 100 + (year + 399) / 400 +
    ((List.range (month - 1)).map fun m => daysInMonth year (m + 1)).sum + (day - 1)

/-- The minutes a zone is ahead of UTC. -/
def zoneMinutes : List Char → Option ℤ
  | ['Z'] => some 0
  | [sign, a, b, ':', c, d] =>
    if (sign = '+' ∨ sign = '-') ∧ isTime [a, b, ':', c, d] then
      let minutes : ℤ := digitsValue [a, b] * 60 + digitsValue [c, d]
      some (if sign = '-' then -minutes else minutes)
    else none
  | _ => none

/-- The milliseconds from 1970 to an ISO instant `YYYY-MM-DDTHH:MM[:SS[.f]]` with its zone, exactly. -/
def instantMs (s : String) : Option ℚ :=
  match s.toList.drop 10 with
  | 'T' :: rest =>
    let inTime := fun c : Char => c.isDigit || c == ':' || c == '.'
    let time := rest.takeWhile inTime
    let fraction := time.drop 9
    let (year, month, day) := dayParts s.toList
    (zoneMinutes (rest.dropWhile inTime)).bind fun zone =>
      if isPlainDate (String.ofList (s.toList.take 10)) && isTime time then
        let minutes : ℤ := ((dayNumber year month day : ℤ) - 719528) * 1440 +
          digitsValue (time.take 2) * 60 + digitsValue ((time.drop 3).take 2) - zone
        let seconds : ℤ := minutes * 60 + digitsValue ((time.drop 6).take 2)
        some (seconds * 1000 + (digitsValue fraction * 1000 : ℚ) / 10 ^ fraction.length)
      else none
  | _ => none

example : instantMs "2026-10-24T10:01:00.0005+02:00" = some (1792828860000 + 1 / 2) := by decide +kernel

/-- What `Date.parse` answers of an ISO instant: the millisecond it is in. -/
def ParsesInstants (dateParse : String → Option ℤ) : Prop :=
  ∀ s ms, instantMs s = some ms → dateParse s = some ⌊ms⌋

/-- The number a decimal version denotes. -/
def decimalValue (s : String) : ℚ :=
  match Decimal.of s with
  | .ok d => d.value
  | .error _ => 0

/-- The instant an ISO version denotes. -/
def instantValue (s : String) : ℚ := (instantMs s).getD 0

/-- What a decimal or an ISO version denotes. -/
def versionValue (s : String) : ℚ := if isDecimalText s then decimalValue s else instantValue s

/-- On the versions of a kind, `newer` is the order of their ranks, and a version of a higher value
never ranks lower. -/
structure Ranked (newer : String → String → Bool) (kind : String → Prop) (value rank : String → ℚ) : Prop where
  newer_iff : ∀ a b, kind a → kind b → (newer a b = true ↔ rank b < rank a)
  mono : ∀ a b, kind a → kind b → value a ≤ value b → rank a ≤ rank b

theorem isSpace_minus : isSpace '-' = false := by decide

theorem isSpace_point : isSpace '.' = false := by decide

theorem takeWhile_append_dropWhile_mem {p : Char → Bool} {cs : List Char} {c : Char} (h : c ∈ cs) :
    p c = true ∨ c ∈ cs.dropWhile p := by
  rw [← List.takeWhile_append_dropWhile (p := p) (l := cs), List.mem_append] at h
  exact h.imp_left List.mem_takeWhile_imp

/-- The digits, point and digits of an unsigned decimal text. -/
theorem matchDigits_of_unsigned {cs : List Char} (h : Unsigned cs) :
    (∃ parts, matchDigits cs = some parts) ∧ ∀ c ∈ cs, c.isDigit = true ∨ c = '.' := by
  obtain ⟨hwhole, hrest⟩ := h
  have hne : (cs.takeWhile Char.isDigit).isEmpty = false := by
    cases hcs : cs.takeWhile Char.isDigit with
    | nil => rw [hcs] at hwhole; exact absurd hwhole (by decide)
    | cons a l => rfl
  cases hfraction : cs.dropWhile Char.isDigit with
  | nil =>
    refine ⟨⟨(cs.takeWhile Char.isDigit, []), ?_⟩, fun c hc => ?_⟩
    · simp only [Std.matchDigits, hfraction, hne, Bool.false_eq_true, if_false]
    · have hmem := takeWhile_append_dropWhile_mem (p := Char.isDigit) hc
      rw [hfraction] at hmem
      exact hmem.imp_right fun h => absurd h List.not_mem_nil
  | cons ch rest =>
    obtain ⟨hch, hdigits⟩ := hrest ch rest hfraction
    rw [isDigits, Bool.and_eq_true, Bool.not_eq_true'] at hdigits
    obtain ⟨hempty, hdigits⟩ := hdigits
    refine ⟨⟨(cs.takeWhile Char.isDigit, rest), ?_⟩, fun c hc => ?_⟩
    · simp only [Std.matchDigits, hfraction, hne, hch, hempty, hdigits, decide_true, Bool.not_false,
        Bool.and_self, if_true]
    · obtain h | h := takeWhile_append_dropWhile_mem (p := Char.isDigit) hc
      · exact .inl h
      · rw [hfraction] at h
        obtain rfl | h := List.mem_cons.1 h
        · exact .inr hch
        · exact .inl (List.all_eq_true.1 hdigits c h)

/-- `dec` reads every text of the decimal form. -/
theorem of_isDecimalText {s : String} (h : isDecimalText s = true) : ∃ d, Decimal.of s = .ok d := by
  have hplain : ∀ c : Char, c.isDigit = true ∨ c = '.' → isSpace c = false := by
    rintro c (hc | rfl)
    · exact isSpace_of_isDigit hc
    · exact isSpace_point
  obtain ⟨cs, hsign, hunsigned⟩ := unsigned_of_isDecimalText h
  obtain ⟨⟨parts, hparts⟩, hall⟩ := matchDigits_of_unsigned hunsigned
  have hmatch : ∃ parts, matchText s.toList = some parts ∧ ∀ c ∈ s.toList, isSpace c = false := by
    obtain hminus | ⟨rfl, hhead⟩ := hsign
    · rw [hminus]
      refine ⟨(true, parts), by simp [matchText, hparts], fun c hc => ?_⟩
      obtain rfl | hc := List.mem_cons.1 hc
      · exact isSpace_minus
      · exact hplain c (hall c hc)
    · refine ⟨(false, parts), ?_, fun c hc => hplain c (hall c hc)⟩
      rw [matchText, hparts]
      · rfl
      · intro rest heq
        exact absurd (hall '+' (heq ▸ List.mem_cons_self)) (by decide)
      · intro rest heq
        exact hhead (heq ▸ rfl)
  obtain ⟨⟨minus, whole, frac⟩, hparts, hall⟩ := hmatch
  rw [Decimal.of, trim_of_all hall, hparts]
  exact ⟨_, rfl⟩

/-- Decimal versions are compared by their values. -/
theorem ranked_decimals (dateParse : String → Option ℤ) :
    Ranked (remoteVersionNewer dateParse) (fun s => isDecimalText s = true) versionValue versionValue := by
  refine ⟨fun a b ha hb => ?_, fun a b _ _ h => h⟩
  obtain ⟨x, hx⟩ := of_isDecimalText ha
  obtain ⟨y, hy⟩ := of_isDecimalText hb
  by_cases hab : a = b
  · simp [remoteVersionNewer, hab]
  · simp only [remoteVersionNewer, if_neg hab, ha, hb, Bool.and_self, if_true, hx, hy, versionValue,
      decimalValue, Decimal.cmp_eq, compare_gt_iff_gt, decide_eq_true_eq]

/-- What an ISO instant starts with is a calendar day, so it is no decimal. -/
theorem shape_of_instant {s : String} {ms : ℚ} (h : instantMs s = some ms) :
    startsWithDate s = true ∧ isDecimalText s = false := by
  have hplain : isPlainDate (String.ofList (s.toList.take 10)) = true := by
    rw [instantMs] at h
    split at h
    · obtain ⟨zone, -, h⟩ := Option.bind_eq_some_iff.1 h
      split_ifs at h with hok
      exact (Bool.and_eq_true_iff.1 hok).1
    · cases h
  have hfits : fits dateShape (s.toList.take 10) = true := by
    simp only [isPlainDate, String.toList_ofList, Bool.and_eq_true] at hplain
    exact hplain.1
  exact ⟨hfits, isDecimalText_of_fits hfits⟩

/-- ISO instants are compared by the milliseconds they are in. -/
theorem ranked_instants {dateParse : String → Option ℤ} (hparse : ParsesInstants dateParse) :
    Ranked (remoteVersionNewer dateParse) (fun s => (instantMs s).isSome = true) versionValue
      (fun s => (⌊versionValue s⌋ : ℤ)) := by
  refine ⟨fun a b ha hb => ?_, fun a b _ _ h => ?_⟩
  · obtain ⟨x, hx⟩ := Option.isSome_iff_exists.1 ha
    obtain ⟨y, hy⟩ := Option.isSome_iff_exists.1 hb
    by_cases hab : a = b
    · simp [remoteVersionNewer, hab]
    · simp only [remoteVersionNewer, if_neg hab, (shape_of_instant hx).2, Bool.false_and, Bool.false_eq_true,
        if_false, (shape_of_instant hx).1, (shape_of_instant hy).1, hparse a x hx, hparse b y hy,
        decide_eq_true_eq, versionValue, instantValue, hx, hy, (shape_of_instant hy).2, Option.getD_some, Int.cast_lt]
  · exact Int.cast_le.2 (Int.floor_le_floor h)

end Norbital.Bolt.Sync
