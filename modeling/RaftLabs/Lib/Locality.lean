import Mathlib.Data.List.Basic
import Mathlib.Data.List.Dedup
import Mathlib.Data.List.Perm.Basic
import Mathlib.Order.Lattice

/-! Orders of operations that take time, put together from orders of parts of them.

Every operation has a call and a return. An order is in time when no operation is before one that
had returned when it was called. If the operations of each key are ordered in time, then all of
them can be: in an order that is in time each operation can be given a point between its call and
its return, such that the points go up along the order; sorting all operations by their points
keeps the order of each key and is in time. -/
namespace RaftLabs.Lib.Locality
variable {α K T : Type} [LinearOrder T] (call ret : α → T)

def InTime (l : List α) : Prop := l.Pairwise fun a b => ¬ ret b < call a

/-- The greatest call up to each operation, and `t`. -/
def pointsFrom : T → List α → List (α × T)
  | _, [] => []
  | t, a :: l => (a, max t (call a)) :: pointsFrom (max t (call a)) l

/-- A point for each operation. -/
def points : List α → List (α × T)
  | [] => []
  | a :: l => pointsFrom call (call a) (a :: l)

variable {call ret} {t : T} {l : List α}

theorem map_pointsFrom : (pointsFrom call t l).map (·.1) = l := by
  induction l generalizing t with
  | nil => rfl
  | cons a l ih => simp [pointsFrom, ih]

theorem map_points : (points call l).map (·.1) = l := by
  cases l with
  | nil => rfl
  | cons a l => exact map_pointsFrom

theorem le_of_mem_pointsFrom {p : α × T} (hp : p ∈ pointsFrom call t l) : t ≤ p.2 := by
  induction l generalizing t with
  | nil => cases hp
  | cons a l ih =>
    rcases List.mem_cons.mp hp with rfl | hmem
    · exact le_max_left _ _
    · exact (le_max_left _ _).trans (ih hmem)

/-- Points go up. -/
theorem pairwise_pointsFrom : (pointsFrom call t l).Pairwise fun p q => p.2 ≤ q.2 := by
  induction l generalizing t with
  | nil => exact .nil
  | cons a l ih => exact List.pairwise_cons.mpr ⟨fun q hq => le_of_mem_pointsFrom hq, ih⟩

theorem pairwise_points : (points call l).Pairwise fun p q => p.2 ≤ q.2 := by
  cases l with
  | nil => exact .nil
  | cons a l => exact pairwise_pointsFrom

/-- A point is between call and return. -/
theorem between_of_mem_pointsFrom (hl : InTime call ret l) (htimes : ∀ a ∈ l, call a ≤ ret a)
    (ht : ∀ a ∈ l, t ≤ ret a) {p : α × T} (hp : p ∈ pointsFrom call t l) :
    call p.1 ≤ p.2 ∧ p.2 ≤ ret p.1 := by
  induction l generalizing t with
  | nil => cases hp
  | cons a l ih =>
    obtain ⟨hfirst, hrest⟩ := List.pairwise_cons.mp hl
    rcases List.mem_cons.mp hp with rfl | hmem
    · exact ⟨le_max_right _ _, max_le (ht a List.mem_cons_self) (htimes a List.mem_cons_self)⟩
    · refine ih hrest (fun b hb => htimes b (List.mem_cons_of_mem a hb)) (fun b hb => ?_) hmem
      exact max_le (ht b (List.mem_cons_of_mem a hb)) (le_of_not_gt (hfirst b hb))

theorem between_of_mem_points (hl : InTime call ret l) (htimes : ∀ a ∈ l, call a ≤ ret a)
    {p : α × T} (hp : p ∈ points call l) : call p.1 ≤ p.2 ∧ p.2 ≤ ret p.1 := by
  cases l with
  | nil => cases hp
  | cons a l =>
    refine between_of_mem_pointsFrom hl htimes (fun b hb => ?_) hp
    rcases List.mem_cons.mp hb with rfl | hmem
    · exact htimes b List.mem_cons_self
    · exact le_of_not_gt ((List.pairwise_cons.mp hl).1 b hmem)

/-! ### Sorting by points -/

section Keys
variable [DecidableEq K] {key : α → K}

/-- The parts of a list by their keys make up the list. -/
theorem flatMap_filter_perm {ks : List K} (hks : ks.Nodup) (xs : List α) :
    (ks.flatMap fun k => xs.filter (key · = k)).Perm (xs.filter (key · ∈ ks)) := by
  induction ks with
  | nil => simp
  | cons k ks ih =>
    obtain ⟨hk, hrest⟩ := List.nodup_cons.mp hks
    have hsplit := List.filter_append_perm (key · = k) (xs.filter (key · ∈ k :: ks))
    rw [List.filter_filter, List.filter_filter] at hsplit
    have hfirst : xs.filter (fun a => decide (key a = k) && decide (key a ∈ k :: ks)) =
        xs.filter (key · = k) := by
      refine List.filter_congr fun a _ => ?_
      by_cases ha : key a = k <;> simp [ha]
    have hothers : xs.filter (fun a => !decide (key a = k) && decide (key a ∈ k :: ks)) =
        xs.filter (key · ∈ ks) := by
      refine List.filter_congr fun a _ => ?_
      by_cases ha : key a = k
      · simp [ha, hk]
      · simp [ha]
    rw [hfirst, hothers] at hsplit
    exact ((ih hrest).append_left _).trans hsplit

variable (call) in
/-- The operations of all keys with their points. -/
def allPoints (ks : List K) (f : K → List α) : List (α × T) :=
  ks.flatMap fun k => points call (f k)

def earlier (p q : α × T) : Bool := decide (p.2 ≤ q.2)

variable (call) in
/-- The operations of all keys, sorted by their points. -/
def merge (ks : List K) (f : K → List α) : List α :=
  ((allPoints call ks f).mergeSort earlier).map (·.1)

theorem earlier_trans (p q r : α × T) (hpq : earlier p q = true) (hqr : earlier q r = true) :
    earlier p r = true :=
  decide_eq_true ((of_decide_eq_true hpq).trans (of_decide_eq_true hqr))

theorem earlier_total (p q : α × T) : (earlier p q || earlier q p) = true := by
  simp [earlier, le_total]

section Merge
variable {ks : List K} {f : K → List α} {xs : List α}

omit [DecidableEq K] in
theorem merge_perm : (merge call ks f).Perm (ks.flatMap f) := by
  have hmap : (allPoints call ks f).map (·.1) = ks.flatMap f := by
    simp only [allPoints, List.map_flatMap, map_points]
  rw [← hmap]
  exact (List.mergeSort_perm _ _).map _

omit [DecidableEq K] in
/-- Sorting by points puts the operations in time. -/
theorem inTime_merge (htimes : ∀ k, ∀ a ∈ f k, call a ≤ ret a)
    (hf : ∀ k, InTime call ret (f k)) : InTime call ret (merge call ks f) := by
  have hbetween : ∀ p ∈ (allPoints call ks f).mergeSort earlier,
      call p.1 ≤ p.2 ∧ p.2 ≤ ret p.1 := by
    intro p hp
    obtain ⟨k, -, hmem⟩ := List.mem_flatMap.mp ((List.mergeSort_perm _ _).subset hp)
    exact between_of_mem_points (hf k) (htimes k) hmem
  rw [InTime, merge, List.pairwise_map]
  refine (List.pairwise_mergeSort earlier_trans earlier_total _).imp_of_mem ?_
  intro p q hp hq hpq
  exact not_lt.mpr
    ((hbetween p hp).1.trans ((of_decide_eq_true hpq).trans (hbetween q hq).2))

omit [DecidableEq K] in
/-- Sorting by points keeps the order of each key. -/
theorem sublist_merge {k : K} (hk : k ∈ ks) : (f k).Sublist (merge call ks f) := by
  have hpart : (points call (f k)).Sublist (allPoints call ks f) :=
    List.sublist_flatten_of_mem (List.mem_map_of_mem hk)
  have hpairwise : (points call (f k)).Pairwise fun p q => earlier p q = true :=
    pairwise_points.imp fun hpq => decide_eq_true hpq
  have hsub := (List.sublist_mergeSort earlier_trans earlier_total hpairwise hpart).map (·.1)
  rwa [map_points] at hsub

variable (call ret key) in
/-- **Locality.** Orders of the operations of each key that are in time are parts of one order of all
operations that is in time. -/
theorem exists_merge (htimes : ∀ a ∈ xs, call a ≤ ret a)
    (hperm : ∀ k, (f k).Perm (xs.filter (key · = k))) (hf : ∀ k, InTime call ret (f k)) :
    ∃ l : List α, l.Perm xs ∧ InTime call ret l ∧ ∀ k, l.filter (key · = k) = f k := by
  have hmem : ∀ k, ∀ a ∈ f k, a ∈ xs ∧ decide (key a = k) = true := fun k a ha =>
    List.mem_filter.mp ((hperm k).subset ha)
  have hxs : xs.filter (key · ∈ (xs.map key).dedup) = xs := by
    refine List.filter_eq_self.mpr fun a ha => decide_eq_true ?_
    exact List.mem_dedup.mpr (List.mem_map_of_mem ha)
  have hall : (merge call (xs.map key).dedup f).Perm xs := by
    refine merge_perm.trans ?_
    refine (List.Perm.flatMap_left _ fun k _ => hperm k).trans ?_
    exact (flatMap_filter_perm (List.nodup_dedup _) xs).trans (.of_eq hxs)
  refine ⟨_, hall, inTime_merge (fun k a ha => htimes a (hmem k a ha).1) hf, fun k => ?_⟩
  have hlength : ((merge call (xs.map key).dedup f).filter (key · = k)).length = (f k).length :=
    ((hall.filter _).trans (hperm k).symm).length_eq
  have hsublist : (f k).Sublist (merge call (xs.map key).dedup f) := by
    cases hfk : f k with
    | nil => exact List.nil_sublist _
    | cons a rest =>
      obtain ⟨ha, hak⟩ := hmem k a (hfk ▸ List.mem_cons_self)
      rw [← hfk]
      refine sublist_merge (List.mem_dedup.mpr ?_)
      rw [← of_decide_eq_true hak]
      exact List.mem_map_of_mem ha
  have hkeyed : (f k).filter (key · = k) = f k :=
    List.filter_eq_self.mpr fun a ha => (hmem k a ha).2
  have hfiltered := hsublist.filter (key · = k)
  rw [hkeyed] at hfiltered
  exact (hfiltered.eq_of_length hlength.symm).symm

end Merge
end Keys
end RaftLabs.Lib.Locality
