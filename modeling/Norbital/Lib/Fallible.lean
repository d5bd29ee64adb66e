import Mathlib.Data.List.Forall2

/-!
# Fallible computations

When a computation that may fail succeeds: a sequence when each of its steps
does, a traversal when it succeeds at every element.
-/

namespace Fallible

universe u

variable {ε : Type*} {α β : Type u}

theorem ok_bind (a : α) (f : α → Except ε β) : ((Except.ok a : Except ε α) >>= f) = f a := rfl

theorem bind_eq_ok {x : Except ε α} {f : α → Except ε β} {b : β} :
    x >>= f = .ok b ↔ ∃ a, x = .ok a ∧ f a = .ok b := by
  cases x with
  | error e => simp [bind, Except.bind]
  | ok a => simp [bind, Except.bind]

theorem map_eq_ok {x : Except ε α} {f : α → β} {b : β} : f <$> x = .ok b ↔ ∃ a, x = .ok a ∧ f a = b := by
  cases x with
  | error e => simp [Functor.map, Except.map]
  | ok a => simp [Functor.map, Except.map]

theorem mapM_eq_ok {f : α → Except ε β} {xs : List α} {ys : List β} :
    xs.mapM f = .ok ys ↔ List.Forall₂ (fun x y => f x = .ok y) xs ys := by
  induction xs generalizing ys with
  | nil =>
    rw [List.mapM_nil, List.forall₂_nil_left_iff]
    exact ⟨fun h => (Except.ok.inj h).symm, fun h => h ▸ rfl⟩
  | cons x xs ih =>
    rw [List.mapM_cons, bind_eq_ok, List.forall₂_cons_left_iff]
    constructor
    · rintro ⟨y, hy, h⟩
      rw [bind_eq_ok] at h
      obtain ⟨rest, hrest, h⟩ := h
      exact ⟨y, rest, hy, ih.mp hrest, (Except.ok.inj h).symm⟩
    · rintro ⟨y, rest, hy, hrest, rfl⟩
      exact ⟨y, hy, bind_eq_ok.mpr ⟨rest, ih.mpr hrest, rfl⟩⟩

/-- A traversal that succeeds does so at each element. -/
theorem mapM_eq_ok_of_mem {f : α → Except ε β} {xs : List α} {ys : List β} (h : xs.mapM f = .ok ys) {x : α}
    (hx : x ∈ xs) : ∃ y, f x = .ok y := by
  rw [mapM_eq_ok] at h
  induction h with
  | nil => cases hx
  | cons hy _ ih =>
    obtain rfl | hx := List.mem_cons.mp hx
    · exact ⟨_, hy⟩
    · exact ih hx

theorem exists_mem_of_mapM {f : α → Except ε β} {xs : List α} {ys : List β} (h : xs.mapM f = .ok ys) {x : α}
    (hx : x ∈ xs) : ∃ y ∈ ys, f x = .ok y := by
  rw [mapM_eq_ok] at h
  induction h with
  | nil => cases hx
  | cons hy _ ih =>
    obtain rfl | hx := List.mem_cons.mp hx
    · exact ⟨_, List.mem_cons_self, hy⟩
    · obtain ⟨y, hmem, hxy⟩ := ih hx
      exact ⟨y, List.mem_cons_of_mem _ hmem, hxy⟩

/-- What every image of a traversal satisfies. -/
theorem forall_mem_of_mapM {f : α → Except ε β} {P : β → Prop} {xs : List α} {ys : List β} (h : xs.mapM f = .ok ys)
    (hf : ∀ x ∈ xs, ∀ y, f x = .ok y → P y) : ∀ y ∈ ys, P y := by
  rw [mapM_eq_ok] at h
  induction h with
  | nil => exact fun y hy => nomatch hy
  | @cons x y xs ys hxy _ ih =>
    rw [List.forall_mem_cons]
    exact ⟨hf x List.mem_cons_self y hxy, ih fun z hz => hf z (List.mem_cons_of_mem x hz)⟩

theorem exists_mem_of_mapM_eq_some {f : α → Option β} {xs : List α} {ys : List β} (h : xs.mapM f = some ys) {x : α}
    (hx : x ∈ xs) : ∃ y ∈ ys, f x = some y := by
  induction xs generalizing ys with
  | nil => cases hx
  | cons a xs ih =>
    rw [List.mapM_cons] at h
    obtain ⟨b, hb, hrest⟩ := Option.bind_eq_some_iff.mp h
    obtain ⟨bs, hbs, hpure⟩ := Option.bind_eq_some_iff.mp hrest
    cases hpure
    obtain rfl | hx := List.mem_cons.mp hx
    · exact ⟨b, List.mem_cons_self, hb⟩
    · obtain ⟨y, hy, heq⟩ := ih hbs hx
      exact ⟨y, List.mem_cons_of_mem b hy, heq⟩

theorem exists_mapM_eq_ok {f : α → Except ε β} {xs : List α} (h : ∀ x ∈ xs, ∃ y, f x = .ok y) :
    ∃ ys, xs.mapM f = .ok ys := by
  induction xs with
  | nil => exact ⟨[], rfl⟩
  | cons x xs ih =>
    obtain ⟨y, hy⟩ := h x (List.mem_cons_self ..)
    obtain ⟨ys, hys⟩ := ih fun z hz => h z (List.mem_cons_of_mem x hz)
    exact ⟨y :: ys, mapM_eq_ok.mpr (.cons hy (mapM_eq_ok.mp hys))⟩

/-- What some image satisfies some source satisfies in its own terms. -/
theorem exists_mem_iff_of_forall₂ {R : α → β → Prop} {P : α → Prop} {Q : β → Prop} {xs : List α} {ys : List β}
    (h : List.Forall₂ R xs ys) (hR : ∀ x y, R x y → (Q y ↔ P x)) : (∃ y ∈ ys, Q y) ↔ ∃ x ∈ xs, P x := by
  induction h with
  | nil => simp
  | cons hxy _ ih => rw [List.exists_mem_cons_iff, List.exists_mem_cons_iff, ih, hR _ _ hxy]

theorem forall_mem_iff_of_forall₂ {R : α → β → Prop} {P : α → Prop} {Q : β → Prop} {xs : List α} {ys : List β}
    (h : List.Forall₂ R xs ys) (hR : ∀ x y, R x y → (Q y ↔ P x)) : (∀ y ∈ ys, Q y) ↔ ∀ x ∈ xs, P x := by
  induction h with
  | nil => simp
  | cons hxy _ ih => rw [List.forall_mem_cons, List.forall_mem_cons, ih, hR _ _ hxy]

/-- A traversal, then one of its results. -/
theorem mapM_then_eq_ok {γ : Type u} {f : α → Except ε β} {g : β → Except ε γ} {xs : List α} {zs : List γ} :
    (∃ ys, xs.mapM f = .ok ys ∧ ys.mapM g = .ok zs) ↔ (xs.mapM fun x => f x >>= g) = .ok zs := by
  simp only [mapM_eq_ok]
  constructor
  · rintro ⟨ys, hys, hzs⟩
    induction hys generalizing zs with
    | nil => exact List.forall₂_nil_left_iff.mpr (List.forall₂_nil_left_iff.mp hzs)
    | cons hy hys ih =>
      cases hzs with
      | cons hz hzs => exact .cons (bind_eq_ok.mpr ⟨_, hy, hz⟩) (ih hzs)
  · intro h
    induction h with
    | nil => exact ⟨[], .nil, .nil⟩
    | cons hz h ih =>
      obtain ⟨y, hy, hz⟩ := bind_eq_ok.mp hz
      obtain ⟨ys, hys, hzs⟩ := ih
      exact ⟨y :: ys, .cons hy hys, .cons hz hzs⟩

/-- A traversal, then one of its elements beside their results. -/
theorem mapM_zip_eq_ok {γ : Type u} {f : α → Except ε β} {g : α × β → Except ε γ} {xs : List α} {zs : List γ} :
    (∃ ys, xs.mapM f = .ok ys ∧ (xs.zip ys).mapM g = .ok zs) ↔
      (xs.mapM fun x => f x >>= fun y => g (x, y)) = .ok zs := by
  simp only [mapM_eq_ok]
  constructor
  · rintro ⟨ys, hys, hzs⟩
    induction hys generalizing zs with
    | nil => exact List.forall₂_nil_left_iff.mpr (List.forall₂_nil_left_iff.mp hzs)
    | cons hy hys ih =>
      cases hzs with
      | cons hz hzs => exact .cons (bind_eq_ok.mpr ⟨_, hy, hz⟩) (ih hzs)
  · intro h
    induction h with
    | nil => exact ⟨[], .nil, .nil⟩
    | cons hz h ih =>
      obtain ⟨y, hy, hz⟩ := bind_eq_ok.mp hz
      obtain ⟨ys, hys, hzs⟩ := ih
      exact ⟨y :: ys, .cons hy hys, .cons hz hzs⟩

theorem mapM_append_eq_ok {f : α → Except ε β} {xs xs' : List α} {ys : List β} :
    (xs ++ xs').mapM f = .ok ys ↔
      xs.mapM f = .ok (ys.take xs.length) ∧ xs'.mapM f = .ok (ys.drop xs.length) := by
  simp only [mapM_eq_ok]
  constructor
  · intro h
    have htake := List.forall₂_take xs.length h
    have hdrop := List.forall₂_drop xs.length h
    rw [List.take_left] at htake
    rw [List.drop_left] at hdrop
    exact ⟨htake, hdrop⟩
  · rintro ⟨h, h'⟩
    rw [← List.take_append_drop xs.length ys]
    exact List.rel_append h h'

/-- Elements beside their results, looked up. -/
theorem lookup_zip [BEq α] [LawfulBEq α] {f : α → Except ε β} {xs : List α} {ys : List β} (h : xs.mapM f = .ok ys)
    {x : α} (hx : x ∈ xs) : ∃ y, (xs.zip ys).lookup x = some y ∧ f x = .ok y := by
  rw [mapM_eq_ok] at h
  induction h with
  | nil => cases hx
  | @cons x' y' xs ys hy _ ih =>
    rw [List.zip_cons_cons, List.lookup_cons]
    cases heq : x == x' with
    | true =>
      obtain rfl : x = x' := eq_of_beq heq
      exact ⟨y', rfl, hy⟩
    | false =>
      obtain rfl | hx := List.mem_cons.mp hx
      · simp at heq
      · exact ih hx

/-- Each element computed once, and looked up. -/
theorem mapM_eraseDups_eq_ok [BEq α] [LawfulBEq α] {f : α → Except ε β} {xs : List α} {ys : List β} (default : β) :
    (∃ zs, xs.eraseDups.mapM f = .ok zs ∧
      ys = xs.map fun x => ((xs.eraseDups.zip zs).lookup x).getD default) ↔ xs.mapM f = .ok ys := by
  have hlookups : ∀ {zs : List β}, xs.eraseDups.mapM f = .ok zs →
      xs.mapM f = .ok (xs.map fun x => ((xs.eraseDups.zip zs).lookup x).getD default) := by
    intro zs hzs
    rw [mapM_eq_ok, List.forall₂_map_right_iff, List.forall₂_same]
    intro x hx
    obtain ⟨y, hlookup, hy⟩ := lookup_zip hzs (List.mem_eraseDups.mpr hx)
    rw [hlookup]
    exact hy
  constructor
  · rintro ⟨zs, hzs, rfl⟩
    exact hlookups hzs
  · intro h
    obtain ⟨zs, hzs⟩ := exists_mapM_eq_ok fun x hx => mapM_eq_ok_of_mem h (List.mem_eraseDups.mp hx)
    exact ⟨zs, hzs, Except.ok.inj (h.symm.trans (hlookups hzs))⟩

theorem mapM_congr {m : Type u → Type*} [Monad m] [LawfulMonad m] {f g : α → m β} {xs : List α}
    (h : ∀ x ∈ xs, f x = g x) : xs.mapM f = xs.mapM g := by
  induction xs with
  | nil => rfl
  | cons x xs ih =>
    rw [List.mapM_cons, List.mapM_cons, h x (List.mem_cons_self ..), ih fun y hy => h y (List.mem_cons_of_mem x hy)]

/-- A fold whose steps succeed depending on the element alone succeeds when each of them does. -/
theorem exists_foldlM_eq_ok {f : β → α → Except ε β} {P : α → Prop} (hf : ∀ b a, (∃ b', f b a = .ok b') ↔ P a)
    (xs : List α) (b : β) : (∃ b', xs.foldlM f b = .ok b') ↔ ∀ x ∈ xs, P x := by
  induction xs generalizing b with
  | nil => exact iff_of_true ⟨b, rfl⟩ fun _ h => by cases h
  | cons x xs ih =>
    simp only [List.foldlM_cons, bind_eq_ok, List.forall_mem_cons]
    constructor
    · rintro ⟨b', after, hafter, h⟩
      exact ⟨(hf b x).mp ⟨after, hafter⟩, (ih after).mp ⟨b', h⟩⟩
    · rintro ⟨hx, hxs⟩
      obtain ⟨after, hafter⟩ := (hf b x).mpr hx
      obtain ⟨b', h⟩ := (ih after).mpr hxs
      exact ⟨b', after, hafter, h⟩

end Fallible
