import Mathlib.Order.Lattice
import Mathlib.Data.Multiset.AddSub

/-! Merging as a join.

An operation that is a join only up to what a `view` of the values shows, and only for values
that satisfy `P`. Merging then obeys the laws of a join as far as the view goes, and a value
merged out of others, in any order and grouping and with any repetitions, shows the least upper
bound of what they show. -/
namespace RaftLabs.Lib
variable {α L : Type} [SemilatticeSup L]

/-- On the values that satisfy `P`, `merge` is the join of what `view` shows. -/
structure Joins (merge : α → α → α) (P : α → Prop) (view : α → L) : Prop where
  closed : ∀ {a b}, P a → P b → P (merge a b)
  view_merge : ∀ {a b}, P a → P b → view (merge a b) = view a ⊔ view b

/-- The value is merged out of those of a multiset. -/
inductive Merged (merge : α → α → α) : Multiset α → α → Prop where
  | given (a : α) : Merged merge {a} a
  | merge {s t : Multiset α} {a b : α} (ha : Merged merge s a) (hb : Merged merge t b) :
      Merged merge (s + t) (merge a b)

namespace Joins
variable {merge : α → α → α} {P : α → Prop} {view : α → L} {a b c : α}
  (h : Joins merge P view)
include h

theorem view_merge_self (ha : P a) : view (merge a a) = view a := by
  rw [h.view_merge ha ha, sup_idem]

theorem view_merge_comm (ha : P a) (hb : P b) : view (merge a b) = view (merge b a) := by
  rw [h.view_merge ha hb, h.view_merge hb ha, sup_comm]

theorem view_merge_assoc (ha : P a) (hb : P b) (hc : P c) :
    view (merge (merge a b) c) = view (merge a (merge b c)) := by
  rw [h.view_merge (h.closed ha hb) hc, h.view_merge ha hb, h.view_merge ha (h.closed hb hc),
    h.view_merge hb hc, sup_assoc]

theorem view_le_merge_left (ha : P a) (hb : P b) : view a ≤ view (merge a b) := by
  rw [h.view_merge ha hb]
  exact le_sup_left

theorem view_le_merge_right (ha : P a) (hb : P b) : view b ≤ view (merge a b) := by
  rw [h.view_merge ha hb]
  exact le_sup_right

theorem view_merge_le {u : L} (ha : P a) (hb : P b) (hau : view a ≤ u) (hbu : view b ≤ u) :
    view (merge a b) ≤ u := by
  rw [h.view_merge ha hb]
  exact sup_le hau hbu

/-- A merged value shows the least upper bound of what went into it. -/
theorem of_merged {s : Multiset α} {x : α} (hx : Merged merge s x) (hs : ∀ a ∈ s, P a) :
    P x ∧ ∀ u, view x ≤ u ↔ ∀ a ∈ s, view a ≤ u := by
  induction hx with
  | given a => exact ⟨hs a (Multiset.mem_singleton_self a), fun u => by simp⟩
  | @merge s t a b _ _ iha ihb =>
    obtain ⟨hpa, hlea⟩ := iha fun v hv => hs v (Multiset.mem_add.mpr (.inl hv))
    obtain ⟨hpb, hleb⟩ := ihb fun v hv => hs v (Multiset.mem_add.mpr (.inr hv))
    refine ⟨h.closed hpa hpb, fun u => ?_⟩
    rw [h.view_merge hpa hpb, sup_le_iff, hlea, hleb]
    simp only [Multiset.mem_add, or_imp, forall_and]

/-- What a merged value shows depends on which values went into it, not on their order or on
how often. -/
theorem view_eq_of_merged {s t : Multiset α} {x y : α} (hx : Merged merge s x)
    (hy : Merged merge t y) (hs : ∀ a ∈ s, P a) (hst : ∀ a, a ∈ s ↔ a ∈ t) :
    view x = view y := by
  have ht : ∀ a ∈ t, P a := fun a ha => hs a ((hst a).mpr ha)
  refine eq_of_forall_ge_iff fun u => ?_
  rw [(h.of_merged hx hs).2, (h.of_merged hy ht).2]
  simp only [hst]

end Joins
end RaftLabs.Lib
