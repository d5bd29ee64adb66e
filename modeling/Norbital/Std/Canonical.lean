import Mathlib.Data.List.Nodup
import Norbital.Lib.JsonTree

/-!
# Canonical JSON

`canonical` of `std/src/hash.ts`: `JSON.stringify` with a replacer that rebuilds every
object from its sorted entries.
-/

namespace Norbital.Std

/-- A JSON value as JavaScript holds it: the own members of an object in some order, one that is
undefined without a value. -/
inductive JsValue where
  | null
  | bool (b : Bool)
  | number (n : JsNumber)
  | string (s : JsString)
  | array (items : List JsValue)
  | object (members : List (JsString × Option JsValue))

/-- The number of a key that is an array index, which own keys begin with. -/
def indexOf (key : JsString) : Option ℕ :=
  match key with
  | [] => none
  | c :: rest =>
    if (c != 48 || rest.isEmpty) && key.all (fun c => 48 ≤ c && c ≤ 57) && JsNumber.value key < 4294967295 then
      some (JsNumber.value key)
    else none

section Entries

variable {α : Type}

/-- `.sort(([a], [b]) => (a < b ? -1 : a > b ? 1 : 0))`: by code units. -/
def sortEntries (entries : List (JsString × α)) : List (JsString × α) := entries.mergeSort fun a b => decide (a.1 ≤ b.1)

/-- The own members of `Object.fromEntries`: array indices ascending, then the others as they were added. -/
def fromEntries (entries : List (JsString × α)) : List (JsString × α) :=
  (entries.filter fun e => (indexOf e.1).isSome).mergeSort (fun a b => decide ((indexOf a.1).getD 0 ≤ (indexOf b.1).getD 0)) ++
    entries.filter fun e => !(indexOf e.1).isSome

end Entries

namespace JsValue

mutual

/-- What is written, every object rebuilt by the replacer. -/
def rebuilt : JsValue → JsonTree
  | .null => .null
  | .bool b => .bool b
  | .number n => .number n
  | .string s => .string s
  | .array items => .array (rebuiltItems items)
  | .object members => .object (fromEntries (sortEntries (present members)))

def rebuiltItems : List JsValue → List JsonTree
  | [] => []
  | v :: vs => v.rebuilt :: rebuiltItems vs

/-- `filter(([, value]) => value !== undefined)`. -/
def present : List (JsString × Option JsValue) → List (JsString × JsonTree)
  | [] => []
  | (_, none) :: ms => present ms
  | (k, some v) :: ms => (k, v.rebuilt) :: present ms

end

end JsValue

def canonical (v : JsValue) : JsString := v.rebuilt.text

namespace JsValue

mutual

/-- The same value, the members of objects in any order and those that are undefined aside. -/
inductive Same : JsValue → JsValue → Prop where
  | null : Same .null .null
  | bool (b : Bool) : Same (.bool b) (.bool b)
  | number (n : JsNumber) : Same (.number n) (.number n)
  | string (s : JsString) : Same (.string s) (.string s)
  | array {vs ws : List JsValue} (h : SameItems vs ws) : Same (.array vs) (.array ws)
  | object {ms ns : List (JsString × Option JsValue)} (h : SameMembers ms ns) : Same (.object ms) (.object ns)

inductive SameItems : List JsValue → List JsValue → Prop where
  | nil : SameItems [] []
  | cons {v w : JsValue} {vs ws : List JsValue} (hv : Same v w) (hvs : SameItems vs ws) : SameItems (v :: vs) (w :: ws)

inductive SameMembers : List (JsString × Option JsValue) → List (JsString × Option JsValue) → Prop where
  | nil {ns : List (JsString × Option JsValue)} (h : ∀ n ∈ ns, n.2 = none) : SameMembers [] ns
  | absent (k : JsString) {ms ns : List (JsString × Option JsValue)} (h : SameMembers ms ns) : SameMembers ((k, none) :: ms) ns
  | member (k : JsString) {v w : JsValue} {ms ns ns' : List (JsString × Option JsValue)} (hv : Same v w)
      (h : SameMembers ms (ns ++ ns')) : SameMembers ((k, some v) :: ms) (ns ++ (k, some w) :: ns')

end

mutual

/-- No object holds a key twice. -/
def Distinct : JsValue → Prop
  | .array items => DistinctItems items
  | .object members => (members.map Prod.fst).Nodup ∧ DistinctMembers members
  | _ => True

def DistinctItems : List JsValue → Prop
  | [] => True
  | v :: vs => v.Distinct ∧ DistinctItems vs

def DistinctMembers : List (JsString × Option JsValue) → Prop
  | [] => True
  | (_, none) :: ms => DistinctMembers ms
  | (_, some v) :: ms => v.Distinct ∧ DistinctMembers ms

end

section Entries

variable {α : Type} {xs ys : List (JsString × α)}

theorem sortEntries_perm (xs : List (JsString × α)) : (sortEntries xs).Perm xs := List.mergeSort_perm xs _

/-- The entries in the order of their keys. -/
theorem sortEntries_sorted (xs : List (JsString × α)) : (sortEntries xs).Pairwise fun a b => a.1 ≤ b.1 := by
  refine (List.pairwise_mergeSort ?_ ?_ xs).imp of_decide_eq_true
  · exact fun a b c hab hbc => decide_eq_true (List.le_trans (of_decide_eq_true hab) (of_decide_eq_true hbc))
  · intro a b
    simpa using List.le_total a.1 b.1

theorem sortEntries_eq (hperm : xs.Perm ys) (hnodup : (xs.map Prod.fst).Nodup) : sortEntries xs = sortEntries ys := by
  refine List.Perm.eq_of_pairwise ?_ (sortEntries_sorted xs) (sortEntries_sorted ys)
    ((sortEntries_perm xs).trans (hperm.trans (sortEntries_perm ys).symm))
  intro a b ha hb hab hba
  have ha := (sortEntries_perm xs).mem_iff.mp ha
  have hb := hperm.mem_iff.mpr ((sortEntries_perm ys).mem_iff.mp hb)
  exact List.inj_on_of_nodup_map hnodup ha hb (List.le_antisymm hab hba)

theorem fromEntries_perm (xs : List (JsString × α)) : (fromEntries xs).Perm xs :=
  ((List.mergeSort_perm _ _).append_right _).trans (List.filter_append_perm _ xs)

end Entries

theorem present_append (ms ns : List (JsString × Option JsValue)) : present (ms ++ ns) = present ms ++ present ns := by
  induction ms with
  | nil => rfl
  | cons m ms ih =>
    obtain ⟨k, _ | v⟩ := m
    · exact ih
    · exact congrArg _ ih

theorem present_eq_nil {ns : List (JsString × Option JsValue)} : present ns = [] ↔ ∀ n ∈ ns, n.2 = none := by
  induction ns with
  | nil => exact iff_of_true rfl (fun _ h => absurd h List.not_mem_nil)
  | cons n ns ih =>
    obtain ⟨k, _ | v⟩ := n
    · rw [List.forall_mem_cons]
      exact ih.trans (and_iff_right rfl).symm
    · exact iff_of_false (List.cons_ne_nil _ _) fun h => absurd (h _ List.mem_cons_self) (Option.some_ne_none v)

/-- Where a written member comes from. -/
theorem exists_member {k : JsString} {t : JsonTree} {ns : List (JsString × Option JsValue)} (h : (k, t) ∈ present ns) :
    ∃ ns₁ w ns₂, ns = ns₁ ++ (k, some w) :: ns₂ ∧ w.rebuilt = t := by
  induction ns with
  | nil => cases h
  | cons n ns ih =>
    obtain ⟨k', _ | w⟩ := n
    · obtain ⟨ns₁, w, ns₂, rfl, hw⟩ := ih h
      exact ⟨(k', none) :: ns₁, w, ns₂, rfl, hw⟩
    · obtain heq | h := List.mem_cons.mp h
      · obtain ⟨rfl, rfl⟩ := Prod.mk.inj heq
        exact ⟨[], w, ns, rfl, rfl⟩
      · obtain ⟨ns₁, w', ns₂, rfl, hw⟩ := ih h
        exact ⟨(k', some w) :: ns₁, w', ns₂, rfl, hw⟩

theorem keys_present (ms : List (JsString × Option JsValue)) : ((present ms).map Prod.fst).Sublist (ms.map Prod.fst) := by
  induction ms with
  | nil => exact .slnil
  | cons m ms ih =>
    obtain ⟨k, _ | v⟩ := m
    · exact ih.cons k
    · exact ih.cons_cons k

mutual

theorem same_of_rebuilt : (a b : JsValue) → a.rebuilt = b.rebuilt → Same a b
  | .null, b, h => by
    cases b <;> simp only [rebuilt, reduceCtorEq] at h
    exact .null
  | .bool x, b, h => by
    cases b <;> simp only [rebuilt, reduceCtorEq, JsonTree.bool.injEq] at h
    exact h ▸ .bool x
  | .number n, b, h => by
    cases b <;> simp only [rebuilt, reduceCtorEq, JsonTree.number.injEq] at h
    exact h ▸ .number n
  | .string s, b, h => by
    cases b <;> simp only [rebuilt, reduceCtorEq, JsonTree.string.injEq] at h
    exact h ▸ .string s
  | .array vs, b, h => by
    cases b <;> simp only [rebuilt, reduceCtorEq, JsonTree.array.injEq] at h
    exact .array (sameItems_of_rebuilt vs _ h)
  | .object ms, b, h => by
    cases b <;> simp only [rebuilt, reduceCtorEq, JsonTree.object.injEq] at h
    have hperm := fun ms => (fromEntries_perm (sortEntries (present ms))).trans (sortEntries_perm (present ms))
    exact .object (sameMembers_of_perm ms _ ((hperm ms).symm.trans (h ▸ hperm _)))

theorem sameItems_of_rebuilt : (vs ws : List JsValue) → rebuiltItems vs = rebuiltItems ws → SameItems vs ws
  | [], [], _ => .nil
  | [], _ :: _, h => by cases h
  | _ :: _, [], h => by cases h
  | v :: vs, w :: ws, h =>
    .cons (same_of_rebuilt v w (List.cons.inj h).1) (sameItems_of_rebuilt vs ws (List.cons.inj h).2)

theorem sameMembers_of_perm : (ms ns : List (JsString × Option JsValue)) → (present ms).Perm (present ns) → SameMembers ms ns
  | [], ns, h => .nil (present_eq_nil.mp h.nil_eq.symm)
  | (k, none) :: ms, ns, h => .absent k (sameMembers_of_perm ms ns h)
  | (k, some v) :: ms, ns, h => by
    obtain ⟨ns₁, w, ns₂, rfl, hw⟩ := exists_member (h.mem_iff.mp List.mem_cons_self)
    refine .member k (same_of_rebuilt v w hw.symm) (sameMembers_of_perm ms (ns₁ ++ ns₂) ?_)
    have hrest : ((k, v.rebuilt) :: present ms).Perm ((k, v.rebuilt) :: (present ns₁ ++ present ns₂)) := by
      refine h.trans ?_
      rw [present_append, ← hw]
      exact List.perm_middle
    rw [present_append]
    exact hrest.cons_inv

end

theorem distinctMembers_append {ms ns : List (JsString × Option JsValue)} :
    DistinctMembers (ms ++ ns) ↔ DistinctMembers ms ∧ DistinctMembers ns := by
  induction ms with
  | nil => exact (iff_of_eq (true_and _)).symm
  | cons m ms ih =>
    obtain ⟨k, _ | v⟩ := m
    · exact ih
    · exact (and_congr_right fun _ => ih).trans and_assoc.symm

mutual

theorem Same.rebuilt_eq : {a b : JsValue} → Same a b → a.Distinct → b.Distinct → a.rebuilt = b.rebuilt
  | _, _, .null, _, _ => rfl
  | _, _, .bool _, _, _ => rfl
  | _, _, .number _, _, _ => rfl
  | _, _, .string _, _, _ => rfl
  | _, _, .array h, ha, hb => by
    simp only [Distinct] at ha hb
    simp only [rebuilt]
    rw [SameItems.rebuilt_eq h ha hb]
  | _, _, @Same.object ms _ h, ha, hb => by
    simp only [Distinct] at ha hb
    simp only [rebuilt]
    rw [sortEntries_eq (SameMembers.present_perm h ha.2 hb.2) (ha.1.sublist (keys_present ms))]

theorem SameItems.rebuilt_eq : {vs ws : List JsValue} → SameItems vs ws → DistinctItems vs → DistinctItems ws →
    rebuiltItems vs = rebuiltItems ws
  | _, _, .nil, _, _ => rfl
  | _, _, .cons hv hvs, ha, hb => by
    simp only [DistinctItems] at ha hb
    simp only [rebuiltItems]
    rw [Same.rebuilt_eq hv ha.1 hb.1, SameItems.rebuilt_eq hvs ha.2 hb.2]

theorem SameMembers.present_perm : {ms ns : List (JsString × Option JsValue)} → SameMembers ms ns → DistinctMembers ms →
    DistinctMembers ns → (present ms).Perm (present ns)
  | _, _, .nil h, _, _ => by rw [present_eq_nil.mpr h]; exact .nil
  | _, _, .absent _ h, ha, hb => by
    simp only [present]
    exact SameMembers.present_perm h ha hb
  | _, _, .member k hv h, ha, hb => by
    simp only [distinctMembers_append, DistinctMembers] at ha hb
    rw [present_append]
    simp only [present]
    rw [Same.rebuilt_eq hv ha.1 hb.2.1]
    refine List.Perm.trans (List.Perm.cons _ ?_) List.perm_middle.symm
    rw [← present_append]
    exact SameMembers.present_perm h ha.2 (distinctMembers_append.mpr ⟨hb.1, hb.2.2⟩)

end

end JsValue

/-- Canonical JSON is a normal form of values up to the order of their members. -/
theorem canonical_eq_iff {a b : JsValue} (ha : a.Distinct) (hb : b.Distinct) : canonical a = canonical b ↔ a.Same b :=
  ⟨fun h => JsValue.same_of_rebuilt a b (JsonTree.text_injective h), fun h => congrArg JsonTree.text (h.rebuilt_eq ha hb)⟩

theorem canonical_proto :
    canonical (.object [(.ascii "b", some (.bool true)), (.ascii "__proto__", some .null), (.ascii "c", none)]) =
      canonical (.object [(.ascii "__proto__", some .null), (.ascii "b", some (.bool true))]) :=
  (canonical_eq_iff
    (by simp [JsValue.Distinct, JsValue.DistinctMembers, JsString.ascii])
    (by simp [JsValue.Distinct, JsValue.DistinctMembers, JsString.ascii])).mpr
    (.object (@JsValue.SameMembers.member _ _ _ _ [(.ascii "__proto__", some .null)] [] (.bool true)
      (@JsValue.SameMembers.member _ _ _ _ [] [] .null (.absent _ (.nil fun _ h => absurd h List.not_mem_nil)))))

end Norbital.Std
