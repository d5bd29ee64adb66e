import Norbital.Lib.Entries

/-!
# Reductions

The elements of a list combined in order by an associative operation: a list of lists
reduces part by part, and rows collected under their keys reduce key by key.
-/

namespace Norbital.Lib

variable {α κ : Type*} {op : α → α → α}

/-- The elements combined in order: nothing where there is none. -/
def reduce (op : α → α → α) : List α → Option α
  | [] => none
  | x :: xs => Option.merge op (some x) (reduce op xs)

@[simp]
theorem reduce_nil : reduce op [] = none := rfl

theorem reduce_cons (x : α) (xs : List α) : reduce op (x :: xs) = Option.merge op (some x) (reduce op xs) := rfl

theorem reduce_eq_none {xs : List α} : reduce op xs = none ↔ xs = [] := by
  cases xs with
  | nil => simp
  | cons x xs => simp [reduce_cons, Option.merge_eq_none_iff]

theorem merge_assoc [Std.Associative op] (a b c : Option α) :
    Option.merge op (Option.merge op a b) c = Option.merge op a (Option.merge op b c) :=
  (inferInstance : Std.Associative (Option.merge op)).assoc a b c

theorem reduce_append [Std.Associative op] (xs ys : List α) :
    reduce op (xs ++ ys) = Option.merge op (reduce op xs) (reduce op ys) := by
  induction xs with
  | nil => rw [List.nil_append, reduce_nil, Option.merge_none_left]
  | cons x xs ih => rw [List.cons_append, reduce_cons, reduce_cons, ih, merge_assoc]

/-- Where the operation chooses, a list of lists reduces to what one of them does. -/
theorem reduce_flatten_choice [Std.Associative op] (hop : ∀ a b, op a b = a ∨ op a b = b) {xss : List (List α)} {x : α}
    (h : reduce op xss.flatten = some x) : ∃ xs ∈ xss, reduce op xs = some x := by
  induction xss with
  | nil => cases h
  | cons xs xss ih =>
    rw [List.flatten_cons, reduce_append] at h
    obtain hx | hx := Option.merge_eq_or_eq hop (reduce op xs) (reduce op xss.flatten)
    · exact ⟨xs, List.mem_cons_self, hx ▸ h⟩
    · obtain ⟨ys, hys, hy⟩ := ih (hx ▸ h)
      exact ⟨ys, List.mem_cons_of_mem xs hys, hy⟩

theorem mem_of_reduce (hop : ∀ a b, op a b = a ∨ op a b = b) {xs : List α} {x : α} (h : reduce op xs = some x) : x ∈ xs := by
  induction xs with
  | nil => cases h
  | cons y ys ih =>
    rw [reduce_cons] at h
    obtain hy | hy := Option.merge_eq_or_eq hop (some y) (reduce op ys)
    · rw [hy] at h
      exact Option.some.inj h ▸ List.mem_cons_self
    · exact List.mem_cons_of_mem y (ih (hy ▸ h))

section Collect

variable [BEq κ]

/-- Each row in turn combined into the entry of its key. -/
def collect (key : α → κ) (op : α → α → α) (rows : List α) : List (κ × α) :=
  rows.foldl (fun entries row => put (key row) (((entries.lookup (key row)).map (op · row)).getD row) entries) []

variable [LawfulBEq κ] {key : α → κ}

theorem lookup_collect [Std.Associative op] (rows : List α) (k : κ) :
    (collect key op rows).lookup k = reduce op (rows.filter (key · == k)) := by
  have hfold : ∀ entries : List (κ × α),
      (rows.foldl (fun entries row => put (key row) (((entries.lookup (key row)).map (op · row)).getD row) entries)
        entries).lookup k = Option.merge op (entries.lookup k) (reduce op (rows.filter (key · == k))) := by
    induction rows with
    | nil => exact fun entries => (Option.merge_none_right).symm
    | cons row rows ih =>
      intro entries
      rw [List.foldl_cons, ih, lookup_put, List.filter_cons]
      by_cases hk : k = key row
      · subst hk
        rw [beq_self_eq_true, if_pos rfl, if_pos rfl, reduce_cons, ← merge_assoc]
        cases entries.lookup (key row) <;> rfl
      · rw [beq_false_of_ne hk, beq_false_of_ne (Ne.symm hk), if_neg Bool.false_ne_true, if_neg Bool.false_ne_true]
  rw [collect, hfold, List.lookup_nil, Option.merge_none_left]

theorem nodup_collect (rows : List α) : ((collect key op rows).map Prod.fst).Nodup := by
  let Keyed (entries : List (κ × α)) : Prop := (entries.map Prod.fst).Nodup
  exact List.foldlRecOn (motive := Keyed) rows _ List.nodup_nil fun _ h _ _ => nodup_put h

/-- An entry is what the rows of its key reduce to. -/
theorem mem_collect [Std.Associative op] {rows : List α} {e : κ × α} :
    e ∈ collect key op rows ↔ reduce op (rows.filter (key · == e.1)) = some e.2 := by
  rw [← lookup_collect]
  exact ⟨fun h => lookup_some_of_mem (nodup_collect rows) h, fun h => mem_of_lookup h⟩

end Collect

end Norbital.Lib
