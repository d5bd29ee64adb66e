import Mathlib.Data.List.Forall2

/-!
# Scanners

A scanner reads a text piece by piece: a step looks at what is left in some
state, gives an item, a state and a shorter rest, or cannot go on.  `run` is the
reading, bounded by a number of steps; `Reads` is the reading itself, as a
derivation with a step for each item.
-/

namespace Scan

variable {α β σ : Type*}

/-- The items read from a text in at most `n` steps. -/
def run (step : σ → List α → Option (β × σ × List α)) : Nat → σ → List α → Option (List β)
  | _, _, [] => some []
  | 0, _, _ :: _ => none
  | n + 1, s, c :: cs =>
    (step s (c :: cs)).bind fun (item, s', rest) => (run step n s' rest).map (item :: ·)

/-- Every step leaves less to read. -/
def Shrinks (step : σ → List α → Option (β × σ × List α)) : Prop :=
  ∀ {s cs item s' rest}, step s cs = some (item, s', rest) → rest.length < cs.length

/-- `items` is what `step` reads from a text, started in `s`. -/
inductive Reads (step : σ → List α → Option (β × σ × List α)) : σ → List α → List β → Prop where
  | nil (s : σ) : Reads step s [] []
  | cons {s s' : σ} {c : α} {cs rest : List α} {item : β} {items : List β}
      (hstep : step s (c :: cs) = some (item, s', rest)) (htail : Reads step s' rest items) :
      Reads step s (c :: cs) (item :: items)

variable {step : σ → List α → Option (β × σ × List α)}

/-- With a step for every element of the text, the bounded reading is the reading. -/
theorem run_eq_some_iff (hstep : Shrinks step) {n : Nat} {s : σ} {cs : List α} {items : List β}
    (hn : cs.length ≤ n) : run step n s cs = some items ↔ Reads step s cs items := by
  induction n generalizing s cs items with
  | zero =>
    obtain rfl : cs = [] := List.length_eq_zero_iff.mp (Nat.le_zero.mp hn)
    constructor
    · intro h
      obtain rfl : [] = items := Option.some.inj h
      exact .nil s
    · intro h
      cases h
      rfl
  | succ n ih =>
    cases cs with
    | nil =>
      constructor
      · intro h
        obtain rfl : [] = items := Option.some.inj h
        exact .nil s
      · intro h
        cases h
        rfl
    | cons c cs =>
      constructor
      · intro h
        obtain ⟨⟨item, s', rest⟩, hone, h⟩ := Option.bind_eq_some_iff.mp h
        obtain ⟨tail, htail, rfl⟩ := Option.map_eq_some_iff.mp h
        have hless := hstep hone
        rw [List.length_cons] at hless hn
        exact .cons hone ((ih (by omega)).mp htail)
      · intro h
        cases h with
        | cons hone htail =>
          have hless := hstep hone
          rw [List.length_cons] at hless hn
          exact Option.bind_eq_some_iff.mpr
            ⟨_, hone, Option.map_eq_some_iff.mpr ⟨_, (ih (by omega)).mpr htail, rfl⟩⟩

theorem Reads.unique {s : σ} {cs : List α} {items items' : List β} (h : Reads step s cs items)
    (h' : Reads step s cs items') : items = items' := by
  induction h generalizing items' with
  | nil => cases h'; rfl
  | cons hone _ ih =>
    cases h' with
    | cons hone' htail' =>
      obtain ⟨rfl, rfl, rfl⟩ : _ ∧ _ ∧ _ := by simpa using hone.symm.trans hone'
      rw [ih htail']

/-- A scanner that can always go on reads every text. -/
theorem exists_reads (hstep : Shrinks step) (htotal : ∀ s c cs, (step s (c :: cs)).isSome) (s : σ)
    (cs : List α) : ∃ items, Reads step s cs items := by
  induction hn : cs.length using Nat.strongRecOn generalizing s cs with
  | _ n ih =>
    cases cs with
    | nil => exact ⟨[], .nil s⟩
    | cons c cs =>
      obtain ⟨⟨item, s', rest⟩, hone⟩ := Option.isSome_iff_exists.mp (htotal s c cs)
      obtain ⟨items, htail⟩ := ih rest.length (hn ▸ hstep hone) s' rest rfl
      exact ⟨item :: items, .cons hone htail⟩

theorem splitOnP_append {q : β → Bool} {ys : List β} (h : ∀ y ∈ ys, q y = false) (zs : List β) :
    (ys ++ zs).splitOnP q = (zs.splitOnP q).modifyHead (ys ++ ·) := by
  induction ys with
  | nil =>
    rw [List.nil_append]
    cases zs.splitOnP q <;> rfl
  | cons y ys ih =>
    obtain ⟨hy, hys⟩ := List.forall_mem_cons.mp h
    rw [List.cons_append, List.splitOnP_cons_eq_if_modifyHead, if_neg (by simp [hy]), ih hys, List.modifyHead_modifyHead]
    rfl

theorem mem_of_mem_splitOnP {q : β → Bool} {ys part : List β} (h : part ∈ ys.splitOnP q) : ∀ y ∈ part, y ∈ ys := by
  induction ys generalizing part with
  | nil =>
    obtain rfl := List.mem_singleton.mp h
    exact fun _ hy => hy
  | cons x ys ih =>
    rw [List.splitOnP_cons_eq_if_modifyHead] at h
    by_cases hx : q x = true
    · rw [if_pos hx] at h
      obtain rfl | h := List.mem_cons.mp h
      · simp
      · exact fun y hy => List.mem_cons_of_mem x (ih h y hy)
    · rw [if_neg hx] at h
      generalize hs : ys.splitOnP q = s at h ih
      cases s with
      | nil => exact absurd hs (List.splitOnP_ne_nil q ys)
      | cons head tail =>
        obtain rfl | h := List.mem_cons.mp h
        · intro y hy
          obtain rfl | hy := List.mem_cons.mp hy
          · exact List.mem_cons_self
          · exact List.mem_cons_of_mem x (ih List.mem_cons_self y hy)
        · exact fun y hy => List.mem_cons_of_mem x (ih (List.mem_cons_of_mem head h) y hy)

theorem exists_mem_of_forall₂ {R : α → β → Prop} {xs : List α} {ys : List β} (h : List.Forall₂ R xs ys) {x : α}
    (hx : x ∈ xs) : ∃ y ∈ ys, R x y := by
  induction h with
  | nil => simp at hx
  | cons hxy _ ih =>
    obtain rfl | hx := List.mem_cons.mp hx
    · exact ⟨_, List.mem_cons_self, hxy⟩
    · obtain ⟨y, hy, hxy⟩ := ih hx
      exact ⟨y, List.mem_cons_of_mem _ hy, hxy⟩

/-- What lists of pieces are cut into, when the marks and nothing else are pieces that cut. -/
theorem forall₂_splitOnP {R : α → List β → Prop} {p : α → Bool} {q : β → Bool}
    (hmark : ∀ x ys, R x ys → p x = true → ∃ y, ys = [y] ∧ q y = true)
    (hother : ∀ x ys, R x ys → p x = false → ∀ y ∈ ys, q y = false) {xs : List α} {yss : List (List β)}
    (h : List.Forall₂ R xs yss) :
    List.Forall₂ (fun s t => ∃ pieces, List.Forall₂ R s pieces ∧ pieces.flatten = t) (xs.splitOnP p)
      (yss.flatten.splitOnP q) := by
  induction h with
  | nil => exact .cons ⟨[], .nil, rfl⟩ .nil
  | @cons x ys xs yss hx hxs ih =>
    rw [List.flatten_cons, List.splitOnP_cons_eq_if_modifyHead]
    cases hp : p x with
    | true =>
      obtain ⟨y, rfl, hy⟩ := hmark x ys hx hp
      rw [if_pos rfl, List.singleton_append, List.splitOnP_cons_eq_if_modifyHead, if_pos hy]
      exact .cons ⟨[], .nil, rfl⟩ ih
    | false =>
      rw [if_neg (by simp), splitOnP_append (hother x ys hx hp)]
      generalize hs : xs.splitOnP p = s at ih ⊢
      generalize ht : yss.flatten.splitOnP q = t at ih ⊢
      cases ih with
      | nil => exact absurd hs (List.splitOnP_ne_nil p xs)
      | cons hhead htail =>
        obtain ⟨pieces, hpieces, rfl⟩ := hhead
        exact .cons ⟨ys :: pieces, .cons hx hpieces, rfl⟩ htail

end Scan
