import Mathlib.Data.List.Nodup
import Mathlib.Logic.Relation

/-!
# Postorder

A depth-first walk that lists a node once all it leads to has been walked.  Without
cycles every node comes after the nodes it leads to; whatever the graph, none is
listed twice and every root is listed.
-/

namespace Norbital.Lib

variable {α : Type*}

/-- Walks from a node: the nodes listed so far, and those seen on the way. -/
def visit [DecidableEq α] (kids : α → List α) : Nat → List α × List α → α → List α × List α
  | 0, walk, _ => walk
  | fuel + 1, (order, seen), t =>
    if t ∈ order ∨ t ∈ seen then (order, seen)
    else
      let walk := (kids t).foldl (visit kids fuel) (order, t :: seen)
      (walk.1 ++ [t], walk.2)

/-- The nodes in the order the walks from the roots list them. -/
def postorder [DecidableEq α] (kids : α → List α) (fuel : Nat) (roots : List α) : List α :=
  roots.foldl (fun order t => (visit kids fuel (order, []) t).1) []

/-- A walk lists more nodes, none of them seen before it; what it sees and does not list was seen. -/
structure Walks (before after : List α × List α) : Prop where
  grows : before.1 <+: after.1
  sees : before.2 ⊆ after.2
  stack : ∀ s ∈ after.2, s ∈ before.2 ∨ s ∈ after.1
  fresh : ∀ s ∈ after.1, s ∈ before.1 ∨ s ∉ before.2
  nodup : before.1.Nodup → after.1.Nodup

theorem Walks.refl (walk : List α × List α) : Walks walk walk :=
  ⟨List.prefix_refl _, fun _ => id, fun _ hs => .inl hs, fun _ hs => .inl hs, id⟩

theorem Walks.trans {a b c : List α × List α} (hab : Walks a b) (hbc : Walks b c) : Walks a c where
  grows := hab.grows.trans hbc.grows
  sees := fun _ hs => hbc.sees (hab.sees hs)
  stack s hs := by
    rcases hbc.stack s hs with hb | hc
    · exact (hab.stack s hb).imp_right fun hs => hbc.grows.subset hs
    · exact .inr hc
  fresh s hs := by
    rcases hbc.fresh s hs with hb | hnot
    · exact hab.fresh s hb
    · exact .inr fun ha => hnot (hab.sees ha)
  nodup h := hbc.nodup (hab.nodup h)

theorem walks_visit [DecidableEq α] (kids : α → List α) (fuel : Nat) (walk : List α × List α) (t : α) :
    Walks walk (visit kids fuel walk t) := by
  induction fuel generalizing walk t with
  | zero => exact Walks.refl walk
  | succ fuel ih =>
    obtain ⟨order, seen⟩ := walk
    rw [visit]
    split_ifs with hdone
    · exact Walks.refl _
    · have hkids : Walks (order, t :: seen) ((kids t).foldl (visit kids fuel) (order, t :: seen)) :=
        List.foldlRecOn (kids t) _ (Walks.refl _) fun walk hwalk c _ => hwalk.trans (ih walk c)
      rw [not_or] at hdone
      have hnot : t ∉ ((kids t).foldl (visit kids fuel) (order, t :: seen)).1 := fun hmem =>
        (hkids.fresh t hmem).elim hdone.1 fun h => h List.mem_cons_self
      refine ⟨hkids.grows.trans (List.prefix_append _ _), ?_, ?_, ?_, ?_⟩
      · exact fun s hs => hkids.sees (List.mem_cons_of_mem t hs)
      · intro s hs
        rcases hkids.stack s hs with hs | hs
        · rcases List.mem_cons.1 hs with rfl | hs
          · exact .inr (List.mem_append_right _ (List.mem_singleton_self s))
          · exact .inl hs
        · exact .inr (List.mem_append_left _ hs)
      · intro s hs
        rcases List.mem_append.1 hs with hs | hs
        · exact (hkids.fresh s hs).imp_right fun h hseen => h (List.mem_cons_of_mem t hseen)
        · rw [List.mem_singleton.1 hs]
          exact .inr hdone.2
      · intro horder
        rw [List.nodup_append]
        refine ⟨hkids.nodup horder, List.nodup_singleton t, ?_⟩
        rintro a ha b hb rfl
        exact hnot (List.mem_singleton.1 hb ▸ ha)

theorem mem_visit [DecidableEq α] (kids : α → List α) {fuel : Nat} (hfuel : 0 < fuel) (order : List α) (t : α) :
    t ∈ (visit kids fuel (order, []) t).1 := by
  obtain ⟨fuel, rfl⟩ := Nat.exists_eq_succ_of_ne_zero (Nat.pos_iff_ne_zero.1 hfuel)
  rw [visit]
  split_ifs with hdone
  · simpa using hdone
  · exact List.mem_append_right _ (List.mem_singleton_self t)

/-- The nodes listed come after all they lead to. -/
def Closed (kids : α → List α) (order : List α) : Prop :=
  ∀ first x last, order = first ++ x :: last → ∀ c ∈ kids x, c ∈ first

theorem Closed.snoc {kids : α → List α} {order : List α} (h : Closed kids order) {t : α}
    (hkids : ∀ c ∈ kids t, c ∈ order) : Closed kids (order ++ [t]) := by
  intro first x last heq c hc
  rcases List.eq_nil_or_concat last with rfl | ⟨init, y, rfl⟩
  · obtain ⟨rfl, ht⟩ := List.append_inj' heq rfl
    rw [List.cons.injEq] at ht
    rw [← ht.1] at hc
    exact hkids c hc
  · rw [List.concat_eq_append, ← List.cons_append, ← List.append_assoc] at heq
    exact h first x init (List.append_inj' heq rfl).1 c hc

/-- A node leads to another through its kids and theirs. -/
def Leads (kids : α → List α) : α → α → Prop := Relation.TransGen fun a b => b ∈ kids a

def Acyclic (kids : α → List α) : Prop := ∀ x, ¬ Leads kids x x

theorem acyclic_of_rank {kids : α → List α} (rank : α → Nat) (h : ∀ x, ∀ c ∈ kids x, rank c < rank x) : Acyclic kids := by
  have hleads : ∀ x y, Leads kids x y → rank y < rank x := by
    intro x y hxy
    induction hxy with
    | single hstep => exact h _ _ hstep
    | tail _ hstep ih => exact Nat.lt_trans (h _ _ hstep) ih
  exact fun x hx => Nat.lt_irrefl _ (hleads x x hx)

/-- How many nodes a walk may still enter. -/
def unseen [DecidableEq α] (nodes seen : List α) : Nat := nodes.countP fun x => x ∉ seen

theorem unseen_mono [DecidableEq α] {nodes seen seen' : List α} (h : seen ⊆ seen') :
    unseen nodes seen' ≤ unseen nodes seen := by
  refine List.countP_mono_left fun x _ hx => ?_
  simp only [decide_eq_true_eq] at hx ⊢
  exact fun hseen => hx (h hseen)

theorem unseen_cons_lt [DecidableEq α] {nodes seen : List α} {t : α} (hnodes : t ∈ nodes) (hseen : t ∉ seen) :
    unseen nodes (t :: seen) < unseen nodes seen := by
  induction nodes with
  | nil => cases hnodes
  | cons x nodes ih =>
    have hmono : unseen nodes (t :: seen) ≤ unseen nodes seen :=
      unseen_mono fun _ hs => List.mem_cons_of_mem t hs
    rw [unseen, unseen, List.countP_cons, List.countP_cons]
    rw [unseen, unseen] at hmono ih
    by_cases hx : x = t
    · subst hx
      have hin : decide (x ∉ x :: seen) = false := by simp
      have hout : decide (x ∉ seen) = true := by simp [hseen]
      rw [hin, hout, if_neg Bool.false_ne_true, if_pos rfl]
      omega
    · have hlt := ih ((List.mem_cons.1 hnodes).resolve_left (Ne.symm hx))
      have hiff : (decide (x ∉ t :: seen)) = decide (x ∉ seen) := by simp [hx]
      rw [hiff]
      omega

section

variable [DecidableEq α] {kids : α → List α} {nodes : List α}
  (hkids : ∀ x ∈ nodes, ∀ c ∈ kids x, c ∈ nodes)
  (hacyclic : Acyclic kids)

include hkids hacyclic

/-- From a node whose seen and unlisted nodes all lead to it, a walk with fuel for the nodes unseen
lists it after all it leads to. -/
theorem closed_visit {fuel : Nat} {order seen : List α} {t : α} (ht : t ∈ nodes)
    (hfuel : unseen nodes seen < fuel) (hclosed : Closed kids order)
    (hstack : ∀ s ∈ seen, s ∈ order ∨ Leads kids s t) :
    Closed kids (visit kids fuel (order, seen) t).1 ∧ t ∈ (visit kids fuel (order, seen) t).1 := by
  induction fuel generalizing order seen t with
  | zero => omega
  | succ fuel ih =>
    rw [visit]
    split_ifs with hdone
    · refine ⟨hclosed, hdone.elim id fun hseen => ?_⟩
      exact (hstack t hseen).resolve_right (hacyclic t)
    · rw [not_or] at hdone
      have hlt := unseen_cons_lt ht hdone.2
      -- the kids in turn, each from a walk that has seen at least the node itself
      have hall : ∀ (cs : List α) (walk : List α × List α), (∀ c ∈ cs, c ∈ kids t) →
          Walks (order, t :: seen) walk → Closed kids walk.1 →
          Closed kids (cs.foldl (visit kids fuel) walk).1 ∧
            ∀ c ∈ cs, c ∈ (cs.foldl (visit kids fuel) walk).1 := by
        intro cs
        induction cs with
        | nil => exact fun walk _ _ hclosed => ⟨hclosed, fun c hc => (List.not_mem_nil hc).elim⟩
        | cons c cs ihcs =>
          intro walk hcs hwalk hclosed
          obtain ⟨order', seen'⟩ := walk
          have hc := hcs c List.mem_cons_self
          have hstack' : ∀ s ∈ seen', s ∈ order' ∨ Leads kids s c := by
            intro s hs
            rcases hwalk.stack s hs with hs | hs
            · rcases List.mem_cons.1 hs with rfl | hs
              · exact .inr (.single hc)
              · rcases hstack s hs with hs | hs
                · exact .inl (hwalk.grows.subset hs)
                · exact .inr (hs.tail hc)
            · exact .inl hs
          have hmono : unseen nodes seen' ≤ unseen nodes (t :: seen) := unseen_mono hwalk.sees
          have hvisit := ih (hkids t ht c hc) (by omega) hclosed hstack'
          have hnext := walks_visit kids fuel (order', seen') c
          obtain ⟨hclosed', hmem⟩ := ihcs (visit kids fuel (order', seen') c)
            (fun d hd => hcs d (List.mem_cons_of_mem c hd)) (hwalk.trans hnext) hvisit.1
          refine ⟨hclosed', ?_⟩
          intro d hd
          rcases List.mem_cons.1 hd with rfl | hd
          · have hrest : Walks (visit kids fuel (order', seen') d)
                (cs.foldl (visit kids fuel) (visit kids fuel (order', seen') d)) :=
              List.foldlRecOn cs _ (Walks.refl _) fun walk hwalk e _ =>
                hwalk.trans (walks_visit kids fuel walk e)
            exact hrest.grows.subset hvisit.2
          · exact hmem d hd
      obtain ⟨hclosed', hmem⟩ := hall (kids t) _ (fun c hc => hc) (Walks.refl _) hclosed
      exact ⟨hclosed'.snoc hmem, List.mem_append_right _ (List.mem_singleton_self t)⟩

theorem closed_postorder {fuel : Nat} {roots : List α} (hroots : ∀ t ∈ roots, t ∈ nodes)
    (hfuel : nodes.length < fuel) : Closed kids (postorder kids fuel roots) := by
  have hle : unseen nodes [] < fuel := Nat.lt_of_le_of_lt List.countP_le_length hfuel
  refine List.foldlRecOn roots _ ?_ fun order horder t ht => ?_
  · intro first x last heq
    cases first <;> cases heq
  · exact (closed_visit hkids hacyclic (hroots t ht) hle horder (by simp)).1

end

theorem nodup_postorder [DecidableEq α] (kids : α → List α) (fuel : Nat) (roots : List α) :
    (postorder kids fuel roots).Nodup :=
  List.foldlRecOn roots _ List.nodup_nil fun order horder t _ =>
    (walks_visit kids fuel (order, []) t).nodup horder

theorem mem_postorder [DecidableEq α] (kids : α → List α) {fuel : Nat} (hfuel : 0 < fuel) {roots : List α} {t : α}
    (ht : t ∈ roots) : t ∈ postorder kids fuel roots := by
  have hall : ∀ order : List α,
      t ∈ roots.foldl (fun order t => (visit kids fuel (order, []) t).1) order := by
    induction roots with
    | nil => cases ht
    | cons r roots ih =>
      intro order
      rw [List.foldl_cons]
      rcases List.mem_cons.1 ht with rfl | ht
      · refine List.foldlRecOn roots _ (mem_visit kids hfuel order t) fun order horder r _ => ?_
        exact (walks_visit kids fuel (order, []) r).grows.subset horder
      · exact ih ht _
  exact hall []

theorem visit_subset [DecidableEq α] {kids : α → List α} {nodes : List α} (hkids : ∀ x ∈ nodes, ∀ c ∈ kids x, c ∈ nodes)
    {fuel : Nat} {walk : List α × List α} {t : α} (ht : t ∈ nodes) (hwalk : walk.1 ⊆ nodes) :
    (visit kids fuel walk t).1 ⊆ nodes := by
  induction fuel generalizing walk t with
  | zero => exact hwalk
  | succ fuel ih =>
    obtain ⟨order, seen⟩ := walk
    rw [visit]
    split_ifs
    · exact hwalk
    · have hall : ∀ cs : List α, (∀ c ∈ cs, c ∈ nodes) → ∀ walk : List α × List α, walk.1 ⊆ nodes →
          (cs.foldl (visit kids fuel) walk).1 ⊆ nodes := by
        intro cs hcs
        induction cs with
        | nil => exact fun _ h => h
        | cons c cs ihcs =>
          intro walk h
          exact ihcs (fun d hd => hcs d (List.mem_cons_of_mem c hd)) _ (ih (hcs c List.mem_cons_self) h)
      intro s hs
      rcases List.mem_append.1 hs with hs | hs
      · exact hall (kids t) (hkids t ht) (order, t :: seen) hwalk hs
      · exact List.mem_singleton.1 hs ▸ ht

theorem postorder_subset [DecidableEq α] {kids : α → List α} {nodes : List α} (hkids : ∀ x ∈ nodes, ∀ c ∈ kids x, c ∈ nodes)
    {fuel : Nat} {roots : List α} (hroots : ∀ t ∈ roots, t ∈ nodes) : postorder kids fuel roots ⊆ nodes := by
  refine List.foldlRecOn (motive := (· ⊆ nodes)) roots _ (List.nil_subset nodes) fun order horder t ht => ?_
  exact visit_subset hkids (hroots t ht) horder

end Norbital.Lib
