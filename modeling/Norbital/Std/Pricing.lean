import Norbital.Lib.Fallible
import Norbital.Std.Decimal

/-!
# Bands of a price

A catalogue line's bands cut its quantity into slices (`band`, `std/src/pricing.ts`): each band that holds takes
what it asks of what is left, and prices that.  No run gives out more than there is, and one with a band that asks
for the rest gives out all of it.
-/

namespace Norbital.Std

namespace Decimal

def sign (d : Decimal) : ℤ := if d.c < 0 then -1 else if d.c > 0 then 1 else 0

theorem sign_nonpos_iff (d : Decimal) : d.sign ≤ 0 ↔ d.value ≤ 0 := by
  have hten : (0 : ℚ) < (10 : ℚ) ^ d.s := zpow_pos (by norm_num) d.s
  have hc : d.sign ≤ 0 ↔ d.c ≤ 0 := by
    unfold sign
    split_ifs <;> omega
  rw [hc, value, div_le_iff₀ hten, zero_mul]
  exact_mod_cast Iff.rfl

/-- `want.gt(left) ? left : want`. -/
def least (want left : Decimal) : Decimal := if want.cmp left = .gt then left else want

theorem least_le (want left : Decimal) : (least want left).value ≤ left.value := by
  unfold least
  split_ifs with hgt
  · exact le_rfl
  · rw [cmp_eq, compare_gt_iff_gt] at hgt
    exact not_lt.mp hgt

theorem least_self (d : Decimal) : least d d = d := by
  unfold least
  exact ite_self d

end Decimal

namespace Pricing

structure Band where
  when : Option String
  take : Option String
  price : String
  label : Option String
  deriving DecidableEq

/-- What the texts come to over the values and a quantity (`run`): whether a condition is `true`, the decimal that
a take is read as, an amount; or the error of one that does not compile or evaluate. -/
structure Formulas (ε Amount : Type) where
  condition : String → Option Decimal → Except ε Bool
  take : String → Decimal → Except ε Decimal
  price : String → Option Decimal → Except ε Amount

structure Slice (Amount : Type) where
  band : ℕ
  label : Option String
  quantity : Option Decimal
  amount : Amount
  deriving DecidableEq

variable {ε Amount : Type} (f : Formulas ε Amount)

def holds (b : Band) (q : Option Decimal) : Except ε Bool :=
  match b.when with
  | none => .ok true
  | some text => f.condition text q

def want (b : Band) (left : Decimal) : Except ε Decimal :=
  match b.take with
  | none => .ok left
  | some text => f.take text left

/-- With no quantity, the first band that holds prices the whole. -/
def whole : ℕ → List Band → Except ε (List (Slice Amount))
  | _, [] => .ok []
  | i, b :: bs => do
    if ← holds f b none then
      let amount ← f.price b.price none
      .ok [⟨i, b.label, none, amount⟩]
    else whole (i + 1) bs

/-- The loop of `band` from its `i`-th band on, with what is left of the quantity. -/
def slices : Decimal → ℕ → List Band → Except ε (List (Slice Amount))
  | _, _, [] => .ok []
  | left, i, b :: bs =>
    if left.sign ≤ 0 then .ok []
    else do
      if ← holds f b (some left) then
        let want ← want f b left
        let take := want.least left
        -- a band that takes nothing is passed over without a price
        if take.sign ≤ 0 then slices left (i + 1) bs
        else
          let amount ← f.price b.price (some take)
          let rest ← slices (left.minus take) (i + 1) bs
          .ok (⟨i, b.label, some take, amount⟩ :: rest)
      else slices left (i + 1) bs

/-- `band`, its quantity read already. -/
def band (bands : List Band) : Option Decimal → Except ε (List (Slice Amount))
  | none => whole f 0 bands
  | some q => slices f q 0 bands

structure Line where
  code : String
  label : String
  bucket : String
  quantity : Option Decimal
  bands : List Band

structure PricedLine (Amount : Type) where
  code : String
  label : String
  bucket : String
  band : ℕ
  quantity : Option Decimal
  amount : Amount
  deriving DecidableEq

def Line.priced (l : Line) (s : Slice Amount) : PricedLine Amount :=
  ⟨l.code, s.label.getD l.label, l.bucket, s.band, s.quantity, s.amount⟩

def pricedLines (lines : List Line) : Except ε (List (PricedLine Amount)) := do
  let priced ← lines.mapM fun l => (band f l.bands l.quantity).map (List.map l.priced)
  .ok priced.flatten

variable {f}

/-- A band is not reached, holds not, takes nothing, or prices a slice of what is left. -/
theorem slices_cons {left : Decimal} {i : ℕ} {b : Band} {bs : List Band} {out : List (Slice Amount)}
    (h : slices f left i (b :: bs) = .ok out) :
    (left.value ≤ 0 ∧ out = []) ∨
    (0 < left.value ∧ holds f b (some left) = .ok false ∧ slices f left (i + 1) bs = .ok out) ∨
    (0 < left.value ∧ ∃ w, want f b left = .ok w ∧ (w.least left).value ≤ 0 ∧
      slices f left (i + 1) bs = .ok out) ∨
    (0 < left.value ∧ ∃ w amount rest, want f b left = .ok w ∧ 0 < (w.least left).value ∧
      holds f b (some left) = .ok true ∧ f.price b.price (some (w.least left)) = .ok amount ∧
      slices f (left.minus (w.least left)) (i + 1) bs = .ok rest ∧
      out = ⟨i, b.label, some (w.least left), amount⟩ :: rest) := by
  rw [slices] at h
  by_cases hleft : left.sign ≤ 0
  · rw [if_pos hleft] at h
    exact .inl ⟨left.sign_nonpos_iff.mp hleft, (Except.ok.inj h).symm⟩
  · rw [if_neg hleft] at h
    rw [left.sign_nonpos_iff, not_le] at hleft
    obtain ⟨yes, hyes, h⟩ := Fallible.bind_eq_ok.mp h
    cases yes with
    | false => exact .inr (.inl ⟨hleft, hyes, h⟩)
    | true =>
      obtain ⟨w, hw, h⟩ := Fallible.bind_eq_ok.mp h
      by_cases htake : (w.least left).sign ≤ 0
      · rw [if_pos htake] at h
        exact .inr (.inr (.inl ⟨hleft, w, hw, (Decimal.sign_nonpos_iff _).mp htake, h⟩))
      · rw [if_neg htake] at h
        rw [Decimal.sign_nonpos_iff, not_le] at htake
        obtain ⟨amount, hprice, h⟩ := Fallible.bind_eq_ok.mp h
        obtain ⟨rest, hrest, h⟩ := Fallible.bind_eq_ok.mp h
        exact .inr (.inr (.inr
          ⟨hleft, w, amount, rest, hw, htake, hyes, hprice, hrest, (Except.ok.inj h).symm⟩))

/-- The quantity of the slices together. -/
def taken : List (Slice Amount) → ℚ
  | [] => 0
  | s :: ss => s.quantity.elim 0 Decimal.value + taken ss

/-- A band that holds always and asks for all that is left. -/
def Band.isRest (b : Band) : Prop := b.when = none ∧ b.take = none

variable (f) in
/-- A slice is a positive quantity at the price its band gives it. -/
def Slice.Priced (bands : List (Band × ℕ)) (s : Slice Amount) : Prop :=
  ∃ b q, (b, s.band) ∈ bands ∧ s.label = b.label ∧ s.quantity = some q ∧ 0 < q.value ∧
    f.price b.price (some q) = .ok s.amount

variable (f) in
/-- How bands cut up a quantity. -/
structure Cut (bands : List (Band × ℕ)) (quantity : ℚ) (out : List (Slice Amount)) : Prop where
  priced : ∀ s ∈ out, s.Priced f bands
  ordered : out.Pairwise (·.band < ·.band)
  within : taken out ≤ max 0 quantity
  used : (∃ b ∈ bands, b.1.isRest) → taken out = max 0 quantity

theorem Slice.Priced.cons {bands : List (Band × ℕ)} {s : Slice Amount} (hs : s.Priced f bands) (b : Band × ℕ) :
    s.Priced f (b :: bands) := by
  obtain ⟨c, q, hmem, hrest⟩ := hs
  exact ⟨c, q, List.mem_cons_of_mem _ hmem, hrest⟩

/-- Nothing is cut of a quantity that is not positive. -/
theorem Cut.nothing (bands : List (Band × ℕ)) {quantity : ℚ} (hq : quantity ≤ 0) :
    Cut f bands quantity [] where
  priced := by simp
  ordered := .nil
  within := le_max_left _ _
  used := fun _ => (max_eq_left hq).symm

/-- A band that takes nothing of a quantity is not one that asks for the rest. -/
theorem Cut.skip {bands : List (Band × ℕ)} {quantity : ℚ} {out : List (Slice Amount)}
    (hc : Cut f bands quantity out) {b : Band × ℕ} (hb : ¬ b.1.isRest) : Cut f (b :: bands) quantity out where
  priced := fun s hs => (hc.priced s hs).cons b
  ordered := hc.ordered
  within := hc.within
  used := by
    rintro ⟨c, hmem, hrest⟩
    obtain rfl | hmem := List.mem_cons.mp hmem
    · exact absurd hrest hb
    · exact hc.used ⟨c, hmem, hrest⟩

theorem Band.isRest.want_eq {b : Band} (hb : b.isRest) (left : Decimal) : want f b left = .ok left := by
  simp only [want, hb.2]

theorem Band.isRest.holds_eq {b : Band} (hb : b.isRest) (q : Option Decimal) : holds f b q = .ok true := by
  simp only [holds, hb.1]

theorem Slice.Priced.band_mem {bands : List Band} {i : ℕ} {s : Slice Amount}
    (hs : s.Priced f (bands.zipIdx i)) : i ≤ s.band := by
  obtain ⟨b, q, hmem, -⟩ := hs
  exact (List.mem_zipIdx hmem).1

theorem taken_nonneg_of_priced {bands : List (Band × ℕ)} {out : List (Slice Amount)}
    (h : ∀ s ∈ out, s.Priced f bands) : 0 ≤ taken out := by
  induction out with
  | nil => exact le_rfl
  | cons s ss ih =>
    obtain ⟨b, q, -, -, hq, hpos, -⟩ := h s List.mem_cons_self
    have hss := ih fun t ht => h t (List.mem_cons_of_mem _ ht)
    simp only [taken, hq, Option.elim_some]
    exact add_nonneg hpos.le hss

theorem Cut.taken_nonneg {bands : List (Band × ℕ)} {quantity : ℚ} {out : List (Slice Amount)}
    (hc : Cut f bands quantity out) : 0 ≤ taken out :=
  taken_nonneg_of_priced hc.priced

/-- The loop keeps to what is left, whatever band it stands at. -/
theorem slices_cut (bands : List Band) {left : Decimal} {i : ℕ} {out : List (Slice Amount)}
    (h : slices f left i bands = .ok out) : Cut f (bands.zipIdx i) left.value out := by
  induction bands generalizing left i out with
  | nil =>
    obtain rfl : [] = out := Except.ok.inj h
    exact ⟨by simp, .nil, le_max_left _ _, by simp⟩
  | cons b bs ih =>
    rw [List.zipIdx_cons]
    obtain ⟨hleft, rfl⟩ | ⟨hleft, hno, hrest⟩ | ⟨hleft, w, hw, htake, hrest⟩ |
      ⟨hleft, w, amount, rest, hw, htake, hyes, hprice, hrest, rfl⟩ := slices_cons h
    · exact .nothing _ hleft
    · refine (ih hrest).skip fun hb => ?_
      rw [hb.holds_eq] at hno
      exact absurd hno (by simp)
    · refine (ih hrest).skip fun hb => ?_
      obtain rfl : left = w := Except.ok.inj ((hb.want_eq left).symm.trans hw)
      rw [Decimal.least_self] at htake
      exact absurd hleft (not_lt.mpr htake)
    · have hc := ih hrest
      -- what is left after the slice is not below zero, so the bounds of the rest add to it
      have hle := w.least_le left
      have hmax : max 0 (left.minus (w.least left)).value = left.value - (w.least left).value := by
        rw [Decimal.value_minus]
        exact max_eq_right (sub_nonneg.mpr hle)
      have hwithin := hc.within
      rw [hmax] at hwithin
      refine ⟨?_, ?_, ?_, ?_⟩
      · intro s hs
        obtain rfl | hs := List.mem_cons.mp hs
        · exact ⟨b, w.least left, List.mem_cons_self, rfl, rfl, htake, hprice⟩
        · exact (hc.priced s hs).cons _
      · exact .cons (fun s hs => (hc.priced s hs).band_mem) hc.ordered
      · rw [max_eq_right hleft.le]
        simp only [taken, Option.elim_some]
        linarith
      · rintro ⟨c, hmem, hisRest⟩
        rw [max_eq_right hleft.le]
        simp only [taken, Option.elim_some]
        obtain rfl | hmem := List.mem_cons.mp hmem
        · obtain rfl : left = w := Except.ok.inj ((hisRest.want_eq left).symm.trans hw)
          rw [Decimal.least_self] at hwithin ⊢
          have hnonneg := hc.taken_nonneg
          linarith
        · have hused := hc.used ⟨c, hmem, hisRest⟩
          rw [hmax] at hused
          linarith

variable (f) in
/-- With no quantity one band prices the whole, the first that holds, or none does. -/
def First (bands : List Band) (i : ℕ) (out : List (Slice Amount)) : Prop :=
  (out = [] ∧ ∀ b ∈ bands, holds f b none = .ok false) ∨
  ∃ before b after amount, bands = before ++ b :: after ∧ (∀ c ∈ before, holds f c none = .ok false) ∧
    holds f b none = .ok true ∧ f.price b.price none = .ok amount ∧
    out = [⟨i + before.length, b.label, none, amount⟩]

theorem whole_first (bands : List Band) {i : ℕ} {out : List (Slice Amount)} (h : whole f i bands = .ok out) :
    First f bands i out := by
  induction bands generalizing i with
  | nil =>
    obtain rfl : [] = out := Except.ok.inj h
    exact .inl ⟨rfl, by simp⟩
  | cons b bs ih =>
    rw [whole] at h
    obtain ⟨yes, hyes, h⟩ := Fallible.bind_eq_ok.mp h
    cases yes with
    | true =>
      obtain ⟨amount, hprice, h⟩ := Fallible.bind_eq_ok.mp h
      exact .inr ⟨[], b, bs, amount, rfl, by simp, hyes, hprice, (Except.ok.inj h).symm⟩
    | false =>
      obtain ⟨hout, hnone⟩ | ⟨before, c, after, amount, rfl, hbefore, hc, hprice, rfl⟩ := ih h
      · exact .inl ⟨hout, List.forall_mem_cons.mpr ⟨hyes, hnone⟩⟩
      · refine .inr ⟨b :: before, c, after, amount, rfl, List.forall_mem_cons.mpr ⟨hyes, hbefore⟩, hc, hprice, ?_⟩
        rw [List.length_cons, Nat.add_right_comm, Nat.add_assoc]

variable (f) in
/-- What a catalogue line's slices are. -/
def Line.Shared (l : Line) (out : List (Slice Amount)) : Prop :=
  match l.quantity with
  | none => First f l.bands 0 out
  | some q => Cut f l.bands.zipIdx q.value out

theorem band_shared {l : Line} {out : List (Slice Amount)} (h : band f l.bands l.quantity = .ok out) :
    l.Shared f out := by
  unfold Line.Shared
  cases hq : l.quantity with
  | none =>
    rw [hq] at h
    exact whole_first l.bands h
  | some q =>
    rw [hq] at h
    exact slices_cut l.bands h

/-- A catalogue is priced line after line.  No line gives out more than its quantity, and one with a band for the
rest gives out all of it. -/
theorem pricedLines_shared {lines : List Line} {out : List (PricedLine Amount)} (h : pricedLines f lines = .ok out) :
    ∃ parts, List.Forall₂ (Line.Shared f) lines parts ∧
      out = (List.zipWith (fun l part => part.map l.priced) lines parts).flatten := by
  obtain ⟨priced, hpriced, hflatten⟩ := Fallible.bind_eq_ok.mp h
  obtain rfl : priced.flatten = out := Except.ok.inj hflatten
  rw [Fallible.mapM_eq_ok] at hpriced
  clear h hflatten
  induction hpriced with
  | nil => exact ⟨[], .nil, rfl⟩
  | @cons l p lines priced hl _ ih =>
    obtain ⟨parts, hparts, hout⟩ := ih
    obtain ⟨part, hpart, rfl⟩ := Fallible.map_eq_ok.mp hl
    refine ⟨part :: parts, .cons (band_shared hpart) hparts, ?_⟩
    rw [List.flatten_cons, hout, List.zipWith_cons_cons, List.flatten_cons]

/-- Formulas of overtime: eight hours at ten, the rest at fifteen, another price from a hundred hours on. -/
def overtime : Formulas String Decimal where
  condition text q := .ok (text == "quantity > 100" && q.any fun hours => hours.cmp ⟨100, 0⟩ == .gt)
  take text _ := if text = "8" then .ok ⟨8, 0⟩ else .error text
  price text q :=
    match q with
    | none => .error text
    | some hours => .ok (hours.times ⟨if text = "quantity * 10" then 10 else 15, 0⟩)

def hours : Line where
  code := "OT"
  label := "Overtime"
  bucket := "pay"
  quantity := some ⟨11, 0⟩
  bands := [⟨some "quantity > 100", none, "quantity * 15", none⟩, ⟨none, some "8", "quantity * 10", none⟩,
    ⟨none, none, "quantity * 15", some "Late"⟩]

theorem pricedLines_shared_overtime : ∃ parts, List.Forall₂ (Line.Shared overtime) [hours] parts ∧
    [⟨"OT", "Overtime", "pay", 1, some ⟨8, 0⟩, ⟨80, 0⟩⟩, ⟨"OT", "Late", "pay", 2, some ⟨3, 0⟩, ⟨45, 0⟩⟩] =
      (List.zipWith (fun l part => part.map l.priced) [hours] parts).flatten :=
  pricedLines_shared rfl

end Pricing

end Norbital.Std
