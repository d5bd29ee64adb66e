import Mathlib.Tactic.SplitIfs
import Mathlib.Data.List.Nodup

/-!
# Maps as lists of entries

A map whose entries keep the order they were set in: a set entry stays where it is,
a new one goes last.
-/

namespace Norbital.Lib

variable {κ α : Type*} [BEq κ] {key k : κ} {value : α} {entries : List (κ × α)}

def put (key : κ) (value : α) : List (κ × α) → List (κ × α)
  | [] => [(key, value)]
  | (k, v) :: entries => if k == key then (key, value) :: entries else (k, v) :: put key value entries

/-- The entries but that of a key. -/
def without (key : κ) (entries : List (κ × α)) : List (κ × α) := entries.filter fun e => !(e.1 == key)

theorem lookup_put [LawfulBEq κ] : (put key value entries).lookup k = if k == key then some value else entries.lookup k := by
  induction entries with
  | nil => simp only [put, List.lookup_cons, List.lookup_nil]; cases k == key <;> rfl
  | cons e entries ih =>
    obtain ⟨j, v⟩ := e
    rw [put]
    by_cases hj : j = key
    · subst hj
      rw [if_pos (beq_self_eq_true j), List.lookup_cons, List.lookup_cons]
      cases k == j <;> rfl
    · have hne : (j == key) = false := beq_false_of_ne hj
      rw [hne, if_neg Bool.false_ne_true, List.lookup_cons, List.lookup_cons, ih]
      by_cases hk : k = j
      · subst hk
        simp [hj]
      · rw [beq_false_of_ne hk]

theorem lookup_filter [LawfulBEq κ] (p : κ → Bool) (entries : List (κ × α)) :
    (entries.filter fun e => p e.1).lookup k = if p k then entries.lookup k else none := by
  induction entries with
  | nil => simp
  | cons e entries ih =>
    rw [List.filter_cons, List.lookup_cons]
    by_cases hk : k = e.1
    · subst hk
      cases hp : p e.1 with
      | true => rw [if_pos rfl, List.lookup_cons, beq_self_eq_true, if_pos rfl]
      | false => rw [if_neg Bool.false_ne_true, ih, hp, if_neg Bool.false_ne_true, if_neg Bool.false_ne_true]
    · rw [beq_false_of_ne hk]
      cases p e.1 with
      | true => rw [if_pos rfl, List.lookup_cons, beq_false_of_ne hk, ih]
      | false => rw [if_neg Bool.false_ne_true, ih]

theorem lookup_without [LawfulBEq κ] : (without key entries).lookup k = if k == key then none else entries.lookup k := by
  rw [without, lookup_filter fun j => !(j == key)]
  cases k == key <;> rfl

theorem lookup_some_of_mem [LawfulBEq κ] (h : (entries.map Prod.fst).Nodup) (hmem : (key, value) ∈ entries) :
    entries.lookup key = some value := by
  induction entries with
  | nil => cases hmem
  | cons e entries ih =>
    rw [List.map_cons, List.nodup_cons] at h
    rw [List.lookup_cons]
    rcases List.mem_cons.1 hmem with rfl | hmem
    · rw [beq_self_eq_true]
    · have hne : (key == e.1) = false := by
        refine beq_false_of_ne ?_
        intro heq
        exact h.1 (List.mem_map.2 ⟨(key, value), hmem, heq⟩)
      rw [hne]
      exact ih h.2 hmem

theorem mem_of_lookup [LawfulBEq κ] (h : entries.lookup key = some value) : (key, value) ∈ entries := by
  induction entries with
  | nil => cases h
  | cons e entries ih =>
    rw [List.lookup_cons] at h
    by_cases hk : key = e.1
    · rw [hk, beq_self_eq_true] at h
      cases h
      rw [hk]
      exact List.mem_cons_self
    · rw [beq_false_of_ne hk] at h
      exact List.mem_cons_of_mem e (ih h)

theorem mem_put {e : κ × α} (h : e ∈ put key value entries) : e = (key, value) ∨ e ∈ entries := by
  induction entries with
  | nil => exact .inl (List.mem_singleton.1 h)
  | cons e' entries ih =>
    rw [put] at h
    split_ifs at h
    · exact (List.mem_cons.1 h).imp_right (List.mem_cons_of_mem e')
    · rcases List.mem_cons.1 h with rfl | h
      · exact .inr List.mem_cons_self
      · exact (ih h).imp_right (List.mem_cons_of_mem e')

theorem put_fst [LawfulBEq κ] : (put key value entries).map Prod.fst =
    if key ∈ entries.map Prod.fst then entries.map Prod.fst else entries.map Prod.fst ++ [key] := by
  induction entries with
  | nil => simp [put]
  | cons e entries ih =>
    rw [put]
    by_cases hk : e.1 = key
    · simp [hk]
    · have hne : (e.1 == key) = false := beq_false_of_ne hk
      rw [hne, if_neg Bool.false_ne_true, List.map_cons, List.map_cons, ih]
      by_cases hmem : key ∈ entries.map Prod.fst
      · rw [if_pos hmem, if_pos (List.mem_cons_of_mem e.1 hmem)]
      · rw [if_neg hmem, if_neg]
        · rfl
        · intro h
          exact (List.mem_cons.1 h).elim (fun h => hk h.symm) hmem

theorem nodup_put [LawfulBEq κ] (h : (entries.map Prod.fst).Nodup) : ((put key value entries).map Prod.fst).Nodup := by
  rw [put_fst]
  split_ifs with hmem
  · exact h
  · rw [List.nodup_append]
    refine ⟨h, List.nodup_singleton key, ?_⟩
    rintro a ha b hb rfl
    exact hmem (List.mem_singleton.1 hb ▸ ha)

theorem nodup_without (h : (entries.map Prod.fst).Nodup) :
    ((without key entries).map Prod.fst).Nodup :=
  h.sublist (List.filter_sublist.map _)

theorem lookup_map_value [LawfulBEq κ] {β : Type*} (f : κ → α → β) (entries : List (κ × α)) :
    (entries.map fun e => (e.1, f e.1 e.2)).lookup k = (entries.lookup k).map (f k) := by
  induction entries with
  | nil => rfl
  | cons e entries ih =>
    rw [List.map_cons, List.lookup_cons, List.lookup_cons, ih]
    by_cases hk : k = e.1
    · subst hk
      rw [beq_self_eq_true]
      rfl
    · rw [beq_false_of_ne hk]

/-- The entries with what a function makes of the one of a key. -/
def alter (key : κ) (f : Option α → Option α) (entries : List (κ × α)) : List (κ × α) :=
  match f (entries.lookup key) with
  | some value => put key value entries
  | none => without key entries

theorem nodup_alter [LawfulBEq κ] {f : Option α → Option α} (h : (entries.map Prod.fst).Nodup) :
    ((alter key f entries).map Prod.fst).Nodup := by
  rw [alter]
  split
  · exact nodup_put h
  · exact nodup_without h

theorem lookup_alter [LawfulBEq κ] {f : Option α → Option α} :
    (alter key f entries).lookup k = if k == key then f (entries.lookup key) else entries.lookup k := by
  rw [alter]
  cases hf : f (entries.lookup key) with
  | some value => exact lookup_put
  | none => exact lookup_without

/-- Changes of distinct keys each find the entry as it was before all of them. -/
theorem lookup_alters [LawfulBEq κ] {β : Type*} (f : κ → β → Option α → Option α) {changes : List (κ × β)}
    (entries : List (κ × α)) (h : (changes.map Prod.fst).Nodup) :
    (changes.foldl (fun es c => alter c.1 (f c.1 c.2) es) entries).lookup k =
      match changes.lookup k with
      | some b => f k b (entries.lookup k)
      | none => entries.lookup k := by
  induction changes generalizing entries with
  | nil => rfl
  | cons c changes ih =>
    obtain ⟨j, b⟩ := c
    rw [List.map_cons, List.nodup_cons] at h
    rw [List.foldl_cons, ih _ h.2, List.lookup_cons]
    by_cases hk : k = j
    · subst hk
      have hnone : changes.lookup k = none := by
        rw [List.lookup_eq_none_iff]
        rintro ⟨i, b'⟩ hmem
        refine bne_iff_ne.2 ?_
        rintro rfl
        exact h.1 (List.mem_map.2 ⟨(k, b'), hmem, rfl⟩)
      rw [hnone, beq_self_eq_true]
      simp only [lookup_alter, beq_self_eq_true, if_true]
    · rw [beq_false_of_ne hk]
      simp only [lookup_alter, beq_false_of_ne hk, Bool.false_eq_true, if_false]

end Norbital.Lib
