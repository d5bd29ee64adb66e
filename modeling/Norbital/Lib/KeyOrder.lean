import Mathlib.Data.List.Sort

/-!
# Lists in strict order of a key

Lists whose keys rise: a sorted permutation is the list itself, cutting at an
element's key cuts after the element, and sorting a list of distinct keys either
way gives such a list or its reverse.  A list in two classes, one below the other,
is sorted class by class.
-/

namespace Norbital.KeyOrder

variable {α β : Type*} {key : α → Nat} {l l' a b : List α} {x y : α}

/-- The keys of the list rise strictly. -/
def Rising (key : α → Nat) (l : List α) : Prop := l.Pairwise fun x y => key x < key y

theorem Rising.inj (h : Rising key l) (hx : x ∈ l) (hy : y ∈ l) (hkey : key x = key y) : x = y := by
  obtain ⟨i, hi, rfl⟩ := List.getElem_of_mem hx
  obtain ⟨j, hj, rfl⟩ := List.getElem_of_mem hy
  rw [Rising, List.pairwise_iff_getElem] at h
  rcases Nat.lt_trichotomy i j with hij | rfl | hij
  · have := h i j hi hj hij
    omega
  · rfl
  · have := h j i hj hi hij
    omega

theorem Rising.nodup (h : Rising key l) : l.Nodup :=
  List.Pairwise.imp (fun hlt heq => by subst heq; omega) h

theorem Rising.le (h : Rising key l) : l.Pairwise fun x y => key x ≤ key y :=
  List.Pairwise.imp Nat.le_of_lt h

/-- A permutation of the list in the order of its keys is the list. -/
theorem Rising.eq_of_perm (h : Rising key l) (hperm : l'.Perm l)
    (hsorted : l'.Pairwise fun x y => key x ≤ key y) : l' = l := by
  refine List.Perm.eq_of_pairwise ?_ hsorted h.le hperm
  intro x y hx hy hle hge
  exact h.inj (hperm.mem_iff.1 hx) hy (Nat.le_antisymm hle hge)

/-- Cutting at an element's key cuts after it. -/
theorem Rising.filter_le (h : Rising key (a ++ x :: b)) :
    ((a ++ x :: b).filter fun y => key y ≤ key x) = a ++ [x] := by
  rw [Rising, List.pairwise_append, List.pairwise_cons] at h
  obtain ⟨-, ⟨hb, -⟩, ha⟩ := h
  have hleft : (a.filter fun y => key y ≤ key x) = a := by
    refine List.filter_eq_self.2 ?_
    intro y hy
    exact decide_eq_true (Nat.le_of_lt (ha y hy x List.mem_cons_self))
  have hright : (b.filter fun y => key y ≤ key x) = [] := by
    refine List.filter_eq_nil_iff.2 ?_
    intro y hy
    have := hb y hy
    simp only [decide_eq_true_eq]
    omega
  simp [List.filter_append, hleft, hright]

/-- Cutting below an element's key cuts before it. -/
theorem Rising.filter_ge (h : Rising key (a ++ x :: b)) :
    ((a ++ x :: b).filter fun y => key x ≤ key y) = x :: b := by
  rw [Rising, List.pairwise_append, List.pairwise_cons] at h
  obtain ⟨-, ⟨hb, -⟩, ha⟩ := h
  have hleft : (a.filter fun y => key x ≤ key y) = [] := by
    refine List.filter_eq_nil_iff.2 ?_
    intro y hy
    have := ha y hy x List.mem_cons_self
    simp only [decide_eq_true_eq]
    omega
  have hright : (b.filter fun y => key x ≤ key y) = b := by
    refine List.filter_eq_self.2 ?_
    intro y hy
    exact decide_eq_true (Nat.le_of_lt (hb y hy))
  simp [List.filter_append, hleft, hright]

/-- A list of distinct keys. -/
def Distinct (key : α → Nat) (l : List α) : Prop := l.Pairwise fun x y => key x ≠ key y

theorem Distinct.rising_sort (h : Distinct key l) :
    Rising key (l.insertionSort fun x y => key x ≤ key y) := by
  have htotal : Std.Total fun x y : α => key x ≤ key y := ⟨fun x y => Nat.le_total _ _⟩
  have htrans : IsTrans α fun x y : α => key x ≤ key y := ⟨fun x y z => Nat.le_trans⟩
  have hsorted := List.pairwise_insertionSort (fun x y : α => key x ≤ key y) l
  have hdistinct : (l.insertionSort fun x y => key x ≤ key y).Pairwise fun x y => key x ≠ key y :=
    (List.perm_insertionSort _ l).pairwise_iff (fun h => Ne.symm h) |>.2 h
  exact hsorted.and hdistinct |>.imp fun ⟨hle, hne⟩ => Nat.lt_of_le_of_ne hle hne

instance (key : α → Nat) (l : List α) : Decidable (Distinct key l) := inferInstanceAs (Decidable (List.Pairwise _ _))

theorem orderedInsert_append_left (h : ∀ y ∈ b, key x ≤ key y) :
    (a ++ b).orderedInsert (fun x y => key x ≤ key y) x = a.orderedInsert (fun x y => key x ≤ key y) x ++ b := by
  induction a with
  | nil =>
    cases b with
    | nil => rfl
    | cons y b => simp [List.orderedInsert_cons, h y List.mem_cons_self]
  | cons z a ih =>
    rw [List.cons_append, List.orderedInsert_cons, List.orderedInsert_cons, ih]
    split_ifs <;> rfl

theorem orderedInsert_append_right (h : ∀ y ∈ a, key y < key x) :
    (a ++ b).orderedInsert (fun x y => key x ≤ key y) x = a ++ b.orderedInsert (fun x y => key x ≤ key y) x := by
  induction a with
  | nil => rfl
  | cons z a ih =>
    have hz := h z List.mem_cons_self
    rw [List.cons_append, List.orderedInsert_cons, if_neg (by omega), ih fun y hy => h y (List.mem_cons_of_mem z hy)]
    rfl

/-- Sorting a list one class of which lies below the other. -/
theorem insertionSort_classes {p : α → Bool}
    (h : ∀ x ∈ l, p x = true → ∀ y ∈ l, p y = false → key x < key y) :
    (l.insertionSort fun x y => key x ≤ key y) =
      ((l.filter p).insertionSort fun x y => key x ≤ key y) ++
        (l.filter fun x => !p x).insertionSort fun x y => key x ≤ key y := by
  induction l with
  | nil => rfl
  | cons x l ih =>
    have ih := ih fun y hy hpy z hz hpz => h y (List.mem_cons_of_mem x hy) hpy z (List.mem_cons_of_mem x hz) hpz
    rw [List.insertionSort_cons, ih]
    cases hx : p x with
    | true =>
      rw [List.filter_cons_of_pos hx, List.filter_cons_of_neg (by simp [hx]), List.insertionSort_cons]
      refine orderedInsert_append_left fun y hy => Nat.le_of_lt ?_
      obtain ⟨hy, hpy⟩ := List.mem_filter.1 ((List.mem_insertionSort _).1 hy)
      exact h x List.mem_cons_self hx y (List.mem_cons_of_mem x hy) (by simpa using hpy)
    | false =>
      rw [List.filter_cons_of_neg (by simp [hx]), List.filter_cons_of_pos (by simp [hx]), List.insertionSort_cons]
      refine orderedInsert_append_right fun y hy => ?_
      obtain ⟨hy, hpy⟩ := List.mem_filter.1 ((List.mem_insertionSort _).1 hy)
      exact h y (List.mem_cons_of_mem x hy) hpy x List.mem_cons_self hx

/-- Sorting the other way reverses. -/
theorem Distinct.sort_reverse (h : Distinct key l) :
    (l.insertionSort fun x y => key y ≤ key x) =
      (l.insertionSort fun x y => key x ≤ key y).reverse := by
  have htotal : Std.Total fun x y : α => key y ≤ key x := ⟨fun x y => Nat.le_total _ _⟩
  have htrans : IsTrans α fun x y : α => key y ≤ key x := ⟨fun x y z hxy hyz => Nat.le_trans hyz hxy⟩
  have hsorted := List.pairwise_insertionSort (fun x y : α => key y ≤ key x) l
  rw [← List.reverse_inj, List.reverse_reverse]
  refine h.rising_sort.eq_of_perm ?_ (List.pairwise_reverse.2 hsorted)
  exact ((List.reverse_perm _).trans (List.perm_insertionSort _ l)).trans
    (List.perm_insertionSort _ l).symm

end Norbital.KeyOrder
