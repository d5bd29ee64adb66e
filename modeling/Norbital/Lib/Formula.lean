import Mathlib.Data.List.Forall2
import Norbital.Lib.ThreeValued

/-!
# Formulas and their spellings

Formulas over atoms, read by a spelling: what each atom is worth, if it can be
evaluated at all, and what a negation makes of an unknown.  A negation that keeps
unknown unknown reads it as true where one that takes it for false reads it as
false, so what two spellings of an atom must have in common depends on the
negations that stand over it.
-/

namespace ThreeValued

/-- A condition over atoms. -/
inductive Formula (α : Type*) where
  | const (value : Bool)
  | and (of : List (Formula α))
  | or (of : List (Formula α))
  | not (of : Formula α)
  | atom (a : α)

/-- `NOT COALESCE(t, false)`. -/
def notHolds (t : Tri) : Tri := some (!t.getD false)

theorem getD_and (s t : Tri) (d : Bool) : (and s t).getD d = (s.getD d && t.getD d) := by
  rcases s with _ | _ | _ <;> rcases t with _ | _ | _ <;> cases d <;> rfl

theorem getD_or (s t : Tri) (d : Bool) : (or s t).getD d = (s.getD d || t.getD d) := by
  rcases s with _ | _ | _ <;> rcases t with _ | _ | _ <;> cases d <;> rfl

theorem getD_not (t : Tri) (d : Bool) : (ThreeValued.not t).getD d = !t.getD (!d) := by
  rcases t with _ | _ | _ <;> cases d <;> rfl

theorem getD_all {ts : List Tri} {bs : List Bool} {d : Bool} (h : List.Forall₂ (fun t b => t.getD d = b) ts bs) :
    (all ts).getD d = bs.all id := by
  induction h with
  | nil => rfl
  | @cons t b ts bs hhead _ ih =>
    rw [all, List.foldr_cons, ← all, getD_and, hhead, ih, List.all_cons, id]

theorem getD_any {ts : List Tri} {bs : List Bool} {d : Bool} (h : List.Forall₂ (fun t b => t.getD d = b) ts bs) :
    (any ts).getD d = bs.any id := by
  induction h with
  | nil => rfl
  | @cons t b ts bs hhead _ ih =>
    rw [any, List.foldr_cons, ← any, getD_or, hhead, ih, List.any_cons, id]

theorem all_map_some (bs : List Bool) : all (bs.map some) = some (bs.all id) := by
  induction bs with
  | nil => rfl
  | cons b bs ih =>
    rw [all] at ih ⊢
    rw [List.map_cons, List.foldr_cons, ih, List.all_cons]
    cases b <;> cases bs.all id <;> rfl

theorem any_map_some (bs : List Bool) : any (bs.map some) = some (bs.any id) := by
  induction bs with
  | nil => rfl
  | cons b bs ih =>
    rw [any] at ih ⊢
    rw [List.map_cons, List.foldr_cons, ih, List.any_cons]
    cases b <;> cases bs.any id <;> rfl

variable {α : Type*}

namespace Formula

mutual

/-- A formula's truth value; `none` where an atom of it cannot be evaluated. -/
def eval (atomOf : α → Option Tri) (neg : Tri → Tri) : Formula α → Option Tri
  | const value => some (some value)
  | and of => (evals atomOf neg of).map all
  | or of => (evals atomOf neg of).map any
  | not of => (eval atomOf neg of).map neg
  | atom a => atomOf a

def evals (atomOf : α → Option Tri) (neg : Tri → Tri) : List (Formula α) → Option (List Tri)
  | [] => some []
  | p :: ps => (eval atomOf neg p).bind fun t => (evals atomOf neg ps).map (t :: ·)

end

mutual

/-- The atoms of a formula, each with whether it stands un-negated, in a formula that does or does not. -/
def signed (positive : Bool) : Formula α → List (Bool × α)
  | const _ => []
  | and of => signeds positive of
  | or of => signeds positive of
  | not of => signed (!positive) of
  | atom a => [(positive, a)]

def signeds (positive : Bool) : List (Formula α) → List (Bool × α)
  | [] => []
  | p :: ps => signed positive p ++ signeds positive ps

end

/-- A part of a formula as it stands there. -/
def standing (positive : Bool) (p : Formula α) : Formula α := if positive then p else not p

mutual

/-- The parts of a formula as they stand in it, itself the first. -/
def parts (positive : Bool) : Formula α → List (Formula α)
  | const value => [standing positive (const value)]
  | and of => standing positive (and of) :: partsOf positive of
  | or of => standing positive (or of) :: partsOf positive of
  | not of => standing positive (not of) :: parts (!positive) of
  | atom a => [standing positive (atom a)]

def partsOf (positive : Bool) : List (Formula α) → List (Formula α)
  | [] => []
  | p :: ps => parts positive p ++ partsOf positive ps

end

theorem mem_parts_self (positive : Bool) (p : Formula α) : standing positive p ∈ parts positive p := by
  cases p <;> simp [parts]

variable (read bound declared : α → Option Tri)

/-- A formula that all three spellings evaluate, and select alike by. -/
def SelectsAlike (p : Formula α) : Prop :=
  ∃ t b d, eval read notHolds p = some t ∧ eval bound ThreeValued.not p = some b ∧
    eval declared ThreeValued.not p = some d ∧ (Holds t ↔ Holds b) ∧ (Holds t ↔ Holds d)

/-- Values of the three spellings that tell alike where they stand: the first takes unknown for false, the second
leaves it to the negations, the third is known. -/
def ToldAlike (positive : Bool) (t u d : Option Tri) : Prop :=
  ∃ t' u' b, t = some t' ∧ u = some u' ∧ d = some (some b) ∧ t'.getD false = b ∧ u'.getD (!positive) = b

/-- An atom told alike in all three spellings, where it stands. -/
def AtomAlike (positive : Bool) (a : α) : Prop := ToldAlike positive (read a) (bound a) (declared a)

variable {read bound declared}

mutual

/-- A formula whose atoms are told alike where they stand is told alike. -/
theorem toldAlike_of_atoms : ∀ (positive : Bool) (p : Formula α),
    (∀ x ∈ signed positive p, AtomAlike read bound declared x.1 x.2) →
    ToldAlike positive (eval read notHolds p) (eval bound ThreeValued.not p) (eval declared ThreeValued.not p)
  | _, const value, _ => ⟨some value, some value, value, rfl, rfl, rfl, rfl, rfl⟩
  | positive, and of, h => by
    obtain ⟨ts, us, bs, hts, hus, hbs, ht, hu⟩ := toldAlikes_of_atoms positive of h
    refine ⟨all ts, all us, bs.all id, ?_, ?_, ?_, getD_all ht, getD_all hu⟩
    · rw [eval, hts, Option.map_some]
    · rw [eval, hus, Option.map_some]
    · rw [eval, hbs, Option.map_some, all_map_some]
  | positive, or of, h => by
    obtain ⟨ts, us, bs, hts, hus, hbs, ht, hu⟩ := toldAlikes_of_atoms positive of h
    refine ⟨any ts, any us, bs.any id, ?_, ?_, ?_, getD_any ht, getD_any hu⟩
    · rw [eval, hts, Option.map_some]
    · rw [eval, hus, Option.map_some]
    · rw [eval, hbs, Option.map_some, any_map_some]
  | positive, not of, h => by
    obtain ⟨t, u, b, ht, hu, hb, htb, hub⟩ := toldAlike_of_atoms (!positive) of h
    refine ⟨notHolds t, ThreeValued.not u, !b, ?_, ?_, ?_, ?_, ?_⟩
    · rw [eval, ht, Option.map_some]
    · rw [eval, hu, Option.map_some]
    · rw [eval, hb, Option.map_some]
      rfl
    · rw [notHolds, Option.getD_some, htb]
    · rw [getD_not, hub]
  | positive, atom a, h => h (positive, a) (by simp [signed])

theorem toldAlikes_of_atoms : ∀ (positive : Bool) (ps : List (Formula α)),
    (∀ x ∈ signeds positive ps, AtomAlike read bound declared x.1 x.2) →
    ∃ ts us bs, evals read notHolds ps = some ts ∧ evals bound ThreeValued.not ps = some us ∧
      evals declared ThreeValued.not ps = some (bs.map some) ∧
      List.Forall₂ (fun t b => t.getD false = b) ts bs ∧ List.Forall₂ (fun u b => u.getD (!positive) = b) us bs
  | _, [], _ => ⟨[], [], [], rfl, rfl, rfl, .nil, .nil⟩
  | positive, p :: ps, h => by
    obtain ⟨t, u, b, ht, hu, hb, htb, hub⟩ := toldAlike_of_atoms positive p fun x hx => h x (by simp [signeds, hx])
    obtain ⟨ts, us, bs, hts, hus, hbs, htbs, hubs⟩ :=
      toldAlikes_of_atoms positive ps fun x hx => h x (by simp [signeds, hx])
    refine ⟨t :: ts, u :: us, b :: bs, ?_, ?_, ?_, .cons htb htbs, .cons hub hubs⟩
    · rw [evals, ht, hts]
      rfl
    · rw [evals, hu, hus]
      rfl
    · rw [evals, hb, hbs]
      rfl

end

/-- A part is selected alike as it stands exactly when it is told alike there, where the third spelling is known. -/
theorem selectsAlike_standing {positive : Bool} {p : Formula α}
    (hknown : ∀ d, eval declared ThreeValued.not p = some d → ∃ b, d = some b) :
    SelectsAlike read bound declared (standing positive p) ↔
      ToldAlike positive (eval read notHolds p) (eval bound ThreeValued.not p) (eval declared ThreeValued.not p) := by
  constructor
  · rintro ⟨t, u, d, ht, hu, hd, hbound, hdeclared⟩
    cases positive with
    | true =>
      obtain ⟨b, rfl⟩ := hknown d hd
      refine ⟨t, u, b, ht, hu, hd, ?_, ?_⟩
      · rw [← Bool.coe_iff_coe, getD_false_eq_true, hdeclared, holds_some]
      · rw [Bool.not_true, ← Bool.coe_iff_coe, getD_false_eq_true, ← hbound, hdeclared, holds_some]
    | false =>
      -- a negation selects where its part is told false, which the two-valued third spelling knows
      rw [standing, if_neg Bool.false_ne_true, eval, Option.map_eq_some_iff] at ht hu hd
      obtain ⟨t, ht, rfl⟩ := ht
      obtain ⟨u, hu, rfl⟩ := hu
      obtain ⟨d, hd, rfl⟩ := hd
      obtain ⟨b, rfl⟩ := hknown d hd
      have htb : t.getD false = b := by
        rw [notHolds, holds_some, show ThreeValued.not (some b) = some !b from rfl, holds_some] at hdeclared
        rw [← Bool.not_inj_iff]
        exact Bool.coe_iff_coe.mp hdeclared
      refine ⟨t, u, b, ht, hu, hd, htb, ?_⟩
      rw [notHolds, holds_some, htb, ← getD_false_eq_true, getD_not, Bool.coe_iff_coe, Bool.not_inj_iff] at hbound
      exact hbound.symm
  · rintro ⟨t, u, b, ht, hu, hd, htb, hub⟩
    cases positive with
    | true =>
      refine ⟨t, u, some b, ht, hu, hd, ?_, ?_⟩
      · rw [← getD_false_eq_true, ← getD_false_eq_true, htb, ← hub]
        rfl
      · rw [← getD_false_eq_true, htb, holds_some]
    | false =>
      refine ⟨notHolds t, ThreeValued.not u, some !b, ?_, ?_, ?_, ?_, ?_⟩
      · rw [standing, if_neg Bool.false_ne_true, eval, ht, Option.map_some]
      · rw [standing, if_neg Bool.false_ne_true, eval, hu, Option.map_some]
      · rw [standing, if_neg Bool.false_ne_true, eval, hd, Option.map_some]
        rfl
      · rw [notHolds, holds_some, htb, ← getD_false_eq_true, getD_not, Bool.not_false, ← hub]
        rfl
      · rw [notHolds, holds_some, htb, holds_some]

/-- A formula whose atoms are told alike where they stand is selected alike. -/
theorem selectsAlike_of_atoms {positive : Bool} {p : Formula α}
    (h : ∀ x ∈ signed positive p, AtomAlike read bound declared x.1 x.2) :
    SelectsAlike read bound declared (standing positive p) := by
  have htold := toldAlike_of_atoms positive p h
  refine (selectsAlike_standing fun d hd => ?_).mpr htold
  obtain ⟨_, _, b, -, -, hb, -⟩ := htold
  exact ⟨b, Option.some.inj (hd.symm.trans hb)⟩

mutual

theorem atomAlike_of_parts (hknown : ∀ a d, declared a = some d → ∃ b, d = some b) :
    ∀ (positive : Bool) (p : Formula α), (∀ q ∈ parts positive p, SelectsAlike read bound declared q) →
      ∀ x ∈ signed positive p, AtomAlike read bound declared x.1 x.2
  | _, const _, _ => by simp [signed]
  | positive, and of, h => atomAlikes_of_parts hknown positive of fun q hq => h q (by simp [parts, hq])
  | positive, or of, h => atomAlikes_of_parts hknown positive of fun q hq => h q (by simp [parts, hq])
  | positive, not of, h => atomAlike_of_parts hknown (!positive) of fun q hq => h q (by simp [parts, hq])
  | positive, atom a, h => by
    intro x hx
    obtain rfl : x = (positive, a) := by simpa [signed] using hx
    have hatom : ∀ d, eval declared ThreeValued.not (atom a) = some d → ∃ b, d = some b := hknown a
    exact (selectsAlike_standing hatom).mp (h _ (mem_parts_self positive (atom a)))

theorem atomAlikes_of_parts (hknown : ∀ a d, declared a = some d → ∃ b, d = some b) :
    ∀ (positive : Bool) (ps : List (Formula α)), (∀ q ∈ partsOf positive ps, SelectsAlike read bound declared q) →
      ∀ x ∈ signeds positive ps, AtomAlike read bound declared x.1 x.2
  | _, [], _ => by simp [signeds]
  | positive, p :: ps, h => by
    intro x hx
    obtain hx | hx := List.mem_append.mp hx
    · exact atomAlike_of_parts hknown positive p (fun q hq => h q (by simp [partsOf, hq])) x hx
    · exact atomAlikes_of_parts hknown positive ps (fun q hq => h q (by simp [partsOf, hq])) x hx

end

mutual

theorem parts_of_atomAlike : ∀ (positive : Bool) (p : Formula α),
    (∀ x ∈ signed positive p, AtomAlike read bound declared x.1 x.2) →
      ∀ q ∈ parts positive p, SelectsAlike read bound declared q
  | positive, const value, h => by
    intro q hq
    obtain rfl : q = standing positive (const value) := by simpa [parts] using hq
    exact selectsAlike_of_atoms h
  | positive, and of, h => by
    intro q hq
    obtain rfl | hq := List.mem_cons.mp hq
    · exact selectsAlike_of_atoms h
    · exact partsOf_of_atomAlike positive of h q hq
  | positive, or of, h => by
    intro q hq
    obtain rfl | hq := List.mem_cons.mp hq
    · exact selectsAlike_of_atoms h
    · exact partsOf_of_atomAlike positive of h q hq
  | positive, not of, h => by
    intro q hq
    obtain rfl | hq := List.mem_cons.mp hq
    · exact selectsAlike_of_atoms h
    · exact parts_of_atomAlike (!positive) of h q hq
  | positive, atom a, h => by
    intro q hq
    obtain rfl : q = standing positive (atom a) := by simpa [parts] using hq
    exact selectsAlike_of_atoms h

theorem partsOf_of_atomAlike : ∀ (positive : Bool) (ps : List (Formula α)),
    (∀ x ∈ signeds positive ps, AtomAlike read bound declared x.1 x.2) →
      ∀ q ∈ partsOf positive ps, SelectsAlike read bound declared q
  | _, [], _ => by simp [partsOf]
  | positive, p :: ps, h => by
    intro q hq
    obtain hq | hq := List.mem_append.mp hq
    · exact parts_of_atomAlike positive p (fun x hx => h x (by simp [signeds, hx])) q hq
    · exact partsOf_of_atomAlike positive ps (fun x hx => h x (by simp [signeds, hx])) q hq

end

/-- A formula and all its parts are selected alike as they stand exactly when each atom is told alike where it
stands. -/
theorem selectsAlike_parts_iff (hknown : ∀ a d, declared a = some d → ∃ b, d = some b) {positive : Bool}
    {p : Formula α} :
    (∀ q ∈ parts positive p, SelectsAlike read bound declared q) ↔
      ∀ x ∈ signed positive p, AtomAlike read bound declared x.1 x.2 :=
  ⟨atomAlike_of_parts hknown positive p, parts_of_atomAlike positive p⟩

end Formula

end ThreeValued
