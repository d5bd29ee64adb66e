import Mathlib.Data.List.Basic
import Norbital.Lib.Fallible

/-!
# Refusals

What a store refuses with (`store/src/errors.ts`), and how checks that refuse
compose.
-/

namespace Norbital.Store

open Fallible

/-- A refusal of the store: its code, its phase and its message. -/
structure StoreError where
  code : String
  phase : String
  message : String
  deriving DecidableEq, Repr

/-- A check that passes, or refuses. -/
def refuseUnless (ok : Bool) (error : StoreError) : Except StoreError Unit :=
  if ok then .ok () else .error error

@[simp]
theorem refuseUnless_eq_ok {ok : Bool} {error : StoreError} :
    refuseUnless ok error = .ok () ↔ ok = true := by
  cases ok <;> simp [refuseUnless]

/-- A check made of every element in turn. -/
def checkEach {α : Type} (check : α → Except StoreError Unit) : List α → Except StoreError Unit
  | [] => .ok ()
  | x :: xs => do
    check x
    checkEach check xs

/-- A check that passes, and then the rest. -/
theorem check_bind_eq_ok {β : Type} {x : Except StoreError Unit} {f : Unit → Except StoreError β}
    {r : β} : (x >>= f) = .ok r ↔ x = .ok () ∧ f () = .ok r := by
  rw [bind_eq_ok]
  constructor
  · rintro ⟨a, hx, hf⟩
    exact ⟨hx, hf⟩
  · rintro ⟨hx, hf⟩
    exact ⟨(), hx, hf⟩

@[simp]
theorem checkEach_eq_ok {α : Type} {check : α → Except StoreError Unit} {xs : List α} :
    checkEach check xs = .ok () ↔ ∀ x ∈ xs, check x = .ok () := by
  induction xs with
  | nil => simp [checkEach]
  | cons x xs ih => simp [checkEach, check_bind_eq_ok, ih]

/-- What each element gives, one after another. -/
def collect {α β : Type} (f : α → Except StoreError (List β)) : List α → Except StoreError (List β)
  | [] => .ok []
  | x :: xs => do
    let ys ← f x
    let rest ← collect f xs
    return ys ++ rest

theorem collect_cons_eq_ok {α β : Type} {f : α → Except StoreError (List β)} {x : α} {xs : List α}
    {r : List β} : collect f (x :: xs) = .ok r ↔
      ∃ ys rest, f x = .ok ys ∧ collect f xs = .ok rest ∧ r = ys ++ rest := by
  simp only [collect, bind_eq_ok]
  constructor
  · rintro ⟨ys, hys, rest, hrest, hr⟩
    exact ⟨ys, rest, hys, hrest, (Except.ok.inj hr).symm⟩
  · rintro ⟨ys, rest, hys, hrest, rfl⟩
    exact ⟨ys, hys, rest, hrest, rfl⟩

theorem mem_collect {α β : Type} {f : α → Except StoreError (List β)} {xs : List α} {r : List β}
    (h : collect f xs = .ok r) {y : β} : y ∈ r ↔ ∃ x ∈ xs, ∃ ys, f x = .ok ys ∧ y ∈ ys := by
  induction xs generalizing r with
  | nil =>
    obtain rfl : [] = r := Except.ok.inj h
    simp
  | cons x xs ih =>
    obtain ⟨ys, rest, hys, hrest, rfl⟩ := collect_cons_eq_ok.mp h
    simp [ih hrest, hys]

/-- A collection that succeeds has asked each element with success. -/
theorem ok_of_collect {α β : Type} {f : α → Except StoreError (List β)} {xs : List α} {r : List β}
    (h : collect f xs = .ok r) {x : α} (hx : x ∈ xs) : ∃ ys, f x = .ok ys := by
  induction xs generalizing r with
  | nil => simp at hx
  | cons y xs ih =>
    obtain ⟨ys, rest, hys, hrest, -⟩ := collect_cons_eq_ok.mp h
    obtain rfl | hx := List.mem_cons.mp hx
    · exact ⟨ys, hys⟩
    · exact ih hrest hx

end Norbital.Store
