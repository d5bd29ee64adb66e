import Mathlib.Data.List.Sort
import Mathlib.Order.Basic

/-!
# Ordering by nullable keys, and reading a sorted list in pages

Elements of a type are ordered by a list of keys, each giving an optional rank
in a linear order and a direction: ascending puts an absent rank last,
descending first.  `before` is the lexicographic order of the keys.

A list that the keys tell apart has one sorted arrangement (`sorted`), and the
elements after one of its members are exactly the rest of that arrangement
(`filter_before`): what a reader needs to continue from the last element seen.
-/

namespace Keyset

/-- The direction a key sorts in. -/
inductive Dir where
  | asc
  | desc
  deriving DecidableEq, Repr

/-- A sort key: an optional rank of each element, and a direction. -/
structure Key (α O : Type*) where
  rank : α → Option O
  dir : Dir

variable {α O : Type*}

/-- What the keys see of an element. -/
def ranks (keys : List (Key α O)) (x : α) : List (Option O) := keys.map (·.rank x)

/-- The keys tell the elements of a list apart. -/
def Distinct (keys : List (Key α O)) (xs : List α) : Prop :=
  xs.Pairwise fun x y => ranks keys x ≠ ranks keys y

theorem Distinct.perm {keys : List (Key α O)} {xs ys : List α} (h : Distinct keys xs)
    (hp : xs.Perm ys) : Distinct keys ys :=
  List.Pairwise.perm h hp Ne.symm

theorem Distinct.filter {keys : List (Key α O)} {xs : List α} (h : Distinct keys xs)
    (p : α → Bool) : Distinct keys (xs.filter p) :=
  List.Pairwise.filter p h

variable [LinearOrder O]

/-- Whether one optional rank sorts strictly before another: ascending puts an absent rank
last, descending first. -/
def Dir.before (dir : Dir) (a b : Option O) : Bool :=
  match dir, a, b with
  | .asc, some a, some b => a < b
  | .asc, some _, none => true
  | .asc, none, _ => false
  | .desc, some a, some b => b < a
  | .desc, none, some _ => true
  | .desc, _, none => false

/-- The lexicographic order of the keys. -/
def before : List (Key α O) → α → α → Bool
  | [], _, _ => false
  | k :: ks, x, y => k.dir.before (k.rank x) (k.rank y) || (k.rank x == k.rank y && before ks x y)

theorem Dir.before_irrefl (dir : Dir) (a : Option O) : dir.before a a = false := by
  cases dir <;> cases a <;> simp [Dir.before]

theorem Dir.before_trans {dir : Dir} {a b c : Option O} (hab : dir.before a b)
    (hbc : dir.before b c) : dir.before a c := by
  cases dir <;> cases a <;> cases b <;> cases c <;> simp_all [Dir.before]
  · exact hab.trans hbc
  · exact hbc.trans hab

theorem Dir.before_total (dir : Dir) (a b : Option O) :
    a = b ∨ dir.before a b ∨ dir.before b a := by
  cases a with
  | none => cases dir <;> cases b <;> simp [Dir.before]
  | some a =>
    cases b with
    | none => cases dir <;> simp [Dir.before]
    | some b =>
      rcases lt_trichotomy a b with h | h | h
      · cases dir <;> simp [Dir.before, h]
      · exact Or.inl (congrArg some h)
      · cases dir <;> simp [Dir.before, h]

/-- The order sees an element only through its ranks. -/
theorem before_congr {keys : List (Key α O)} {x x' y y' : α} (hx : ranks keys x = ranks keys x')
    (hy : ranks keys y = ranks keys y') : before keys x y = before keys x' y' := by
  induction keys with
  | nil => rfl
  | cons k ks ih =>
    simp only [ranks, List.map_cons, List.cons.injEq] at hx hy
    rw [before, before, hx.1, hy.1, ih hx.2 hy.2]

/-- An element is never before itself, nor before one its keys do not tell apart. -/
theorem before_of_ranks_eq {keys : List (Key α O)} {x y : α} (h : ranks keys x = ranks keys y) :
    before keys x y = false := by
  induction keys with
  | nil => rfl
  | cons k ks ih =>
    simp only [ranks, List.map_cons, List.cons.injEq] at h
    simp [before, h.1, Dir.before_irrefl, ih h.2]

theorem before_trans {keys : List (Key α O)} {x y z : α} (hxy : before keys x y)
    (hyz : before keys y z) : before keys x z := by
  induction keys with
  | nil => simp [before] at hxy
  | cons k ks ih =>
    simp only [before, Bool.or_eq_true, Bool.and_eq_true, beq_iff_eq] at hxy hyz ⊢
    rcases hxy with hxy | ⟨hxy, hxy'⟩
    · rcases hyz with hyz | ⟨hyz, -⟩
      · exact Or.inl (Dir.before_trans hxy hyz)
      · exact Or.inl (hyz ▸ hxy)
    · rcases hyz with hyz | ⟨hyz, hyz'⟩
      · exact Or.inl (hxy ▸ hyz)
      · exact Or.inr ⟨hxy.trans hyz, ih hxy' hyz'⟩

/-- Two elements the keys tell apart are ordered one way or the other. -/
theorem before_total (keys : List (Key α O)) (x y : α) :
    ranks keys x = ranks keys y ∨ before keys x y ∨ before keys y x := by
  induction keys with
  | nil => exact Or.inl rfl
  | cons k ks ih =>
    simp only [before, ranks, List.map_cons, List.cons.injEq, Bool.or_eq_true, Bool.and_eq_true,
      beq_iff_eq]
    rcases Dir.before_total k.dir (k.rank x) (k.rank y) with h | h | h
    · rcases ih with ih | ih | ih
      · exact Or.inl ⟨h, ih⟩
      · exact Or.inr (Or.inl (Or.inr ⟨h, ih⟩))
      · exact Or.inr (Or.inr (Or.inr ⟨h.symm, ih⟩))
    · exact Or.inr (Or.inl (Or.inl h))
    · exact Or.inr (Or.inr (Or.inl h))

/-- One element is before another when some key puts it there and the keys before that one do not
tell the two apart. -/
theorem before_iff_exists {keys : List (Key α O)} {x y : α} :
    before keys x y ↔ ∃ i, ∃ k, keys[i]? = some k ∧ (∀ p ∈ keys.take i, p.rank x = p.rank y) ∧
      k.dir.before (k.rank x) (k.rank y) := by
  induction keys with
  | nil => simp [before]
  | cons k ks ih =>
    simp only [before, Bool.or_eq_true, Bool.and_eq_true, beq_iff_eq, ih]
    constructor
    · rintro (h | ⟨heq, i, k', hk', hpre, h⟩)
      · exact ⟨0, k, rfl, by simp, h⟩
      · refine ⟨i + 1, k', by simpa using hk', ?_, h⟩
        intro p hp
        rw [List.take_succ_cons] at hp
        rcases List.mem_cons.mp hp with rfl | hp
        · exact heq
        · exact hpre p hp
    · rintro ⟨i, k', hk', hpre, h⟩
      cases i with
      | zero =>
        simp only [List.getElem?_cons_zero, Option.some.injEq] at hk'
        exact Or.inl (hk' ▸ h)
      | succ i =>
        simp only [List.take_succ_cons, List.mem_cons, forall_eq_or_imp] at hpre
        exact Or.inr ⟨hpre.1, i, k', by simpa using hk', hpre.2, h⟩

theorem before_asymm {keys : List (Key α O)} {x y : α} (h : before keys x y) :
    before keys y x = false := by
  by_contra hyx
  have := before_trans h (by simpa using hyx)
  rw [before_of_ranks_eq rfl] at this
  exact absurd this (by decide)

/-- `ORDER BY`: the elements arranged by the keys. -/
def sorted (keys : List (Key α O)) (xs : List α) : List α :=
  xs.mergeSort fun x y => !before keys y x

theorem sorted_perm (keys : List (Key α O)) (xs : List α) : (sorted keys xs).Perm xs :=
  List.mergeSort_perm _ _

/-- The sorted arrangement is strictly increasing when the keys tell its elements apart. -/
theorem sorted_pairwise {keys : List (Key α O)} {xs : List α} (h : Distinct keys xs) :
    (sorted keys xs).Pairwise fun x y => before keys x y := by
  have hle : (sorted keys xs).Pairwise fun x y => !before keys y x := by
    apply List.pairwise_mergeSort
    · intro a b c hab hbc
      simp only [Bool.not_eq_true'] at hab hbc ⊢
      by_contra hca
      have hca : before keys c a := by simpa using hca
      rcases before_total keys b c with hbc' | hbc' | hbc'
      · rw [before_congr hbc' rfl, hca] at hab
        exact absurd hab (by decide)
      · have := before_trans hbc' hca
        simp [hab] at this
      · simp [hbc] at hbc'
    · intro a b
      by_cases hab : before keys a b
      · simp [before_asymm hab]
      · simp [hab]
  have hd : Distinct keys (sorted keys xs) := h.perm (sorted_perm keys xs).symm
  refine (hle.and hd).imp ?_
  intro x y hxy
  rcases before_total keys x y with heq | hb | hb
  · exact absurd heq hxy.2
  · exact hb
  · simp [hb] at hxy

/-- Sorting commutes with filtering. -/
theorem sorted_filter {keys : List (Key α O)} {xs : List α} (h : Distinct keys xs)
    (p : α → Bool) : sorted keys (xs.filter p) = (sorted keys xs).filter p := by
  have hperm := (sorted_perm keys (xs.filter p)).trans ((sorted_perm keys xs).filter p).symm
  refine List.Perm.eq_of_pairwise ?_ (sorted_pairwise (h.filter p)) ((sorted_pairwise h).filter p) hperm
  intro x y _ _ hxy hyx
  rw [before_asymm hxy] at hyx
  exact absurd hyx (by decide)

/-- In a strictly increasing list, the elements after a member are those that follow it. -/
theorem filter_before {keys : List (Key α O)} {pre post : List α} {x : α}
    (h : (pre ++ x :: post).Pairwise fun x y => before keys x y) :
    (pre ++ x :: post).filter (before keys x) = post := by
  rw [List.pairwise_append, List.pairwise_cons] at h
  obtain ⟨-, ⟨hx, -⟩, hpre⟩ := h
  have h₁ : pre.filter (before keys x) = [] := by
    rw [List.filter_eq_nil_iff]
    intro y hy
    simp [before_asymm (hpre y hy x List.mem_cons_self)]
  have h₂ : post.filter (before keys x) = post := List.filter_eq_self.mpr hx
  rw [List.filter_append, List.filter_cons, h₁, h₂, before_of_ranks_eq rfl]
  rfl

end Keyset
