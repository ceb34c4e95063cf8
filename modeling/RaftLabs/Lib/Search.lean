import Mathlib.Algebra.Order.Ring.Nat
import Mathlib.Logic.Relation

/-! Depth-first search that does not enter a node twice.

A node has a list of candidates, each of which leads to another node or nowhere. The search keeps
the nodes on the way to the current one with the candidates it has not tried there, and every node
it has entered. Nodes that are the same may stand for each other: a candidate that leads to a node
the same as one entered before is passed over. That loses nothing when moves go up in rank and
nodes that are the same have the same rank and reach goals alike: the node entered before is then
not on the way to the current one, so the search has left it without a goal. -/
namespace RaftLabs.Lib

structure Search (κ α : Type) where
  candidates : κ → List α
  move : κ → α → Option κ

namespace Search
variable {κ α : Type} (S : Search κ α) (goal : κ → Prop)

def Moves (k k' : κ) : Prop := ∃ a ∈ S.candidates k, S.move k a = some k'

/-- Moves lead to a goal. -/
def Solvable (k : κ) : Prop := ∃ k', Relation.ReflTransGen S.Moves k k' ∧ goal k'

variable {S goal} in
theorem solvable_iff {k : κ} :
    S.Solvable goal k ↔ goal k ∨ ∃ k', S.Moves k k' ∧ S.Solvable goal k' := by
  constructor
  · rintro ⟨k', hreach, hgoal⟩
    rcases Relation.ReflTransGen.cases_head hreach with rfl | ⟨k₁, hmove, hrest⟩
    · exact .inl hgoal
    · exact .inr ⟨k₁, hmove, k', hrest, hgoal⟩
  · rintro (hgoal | ⟨k₁, hmove, k', hrest, hgoal⟩)
    · exact ⟨k, .refl, hgoal⟩
    · exact ⟨k', .head hmove hrest, hgoal⟩

/-- Candidates that lead from a node to another, one after the other. -/
inductive Path (S : Search κ α) (root : κ) : List α → κ → Prop
  | nil : Path S root [] root
  | concat {as : List α} {k k' : κ} {a : α} (before : Path S root as k)
      (candidate : a ∈ S.candidates k) (move : S.move k a = some k') : Path S root (as ++ [a]) k'

/-! ### The search -/

/-- The current node with the candidates to be tried, the nodes on the way to it with theirs, and
the nodes that were entered. -/
structure State (κ α : Type) where
  current : κ
  rest : List α
  stack : List (κ × List α)
  visited : List κ

def start (k : κ) : State κ α := ⟨k, S.candidates k, [], []⟩

/-- One step; there is none when every candidate has been tried. -/
def step (same : κ → κ → Bool) (st : State κ α) : Option (State κ α) :=
  match st.rest with
  | [] =>
    match st.stack with
    | [] => none
    | (k, rest) :: stack => some { st with current := k, rest := rest, stack := stack }
  | a :: rest =>
    match S.move st.current a with
    | none => some { st with rest := rest }
    | some k =>
      if st.visited.any (same k) then some { st with rest := rest }
      else some ⟨k, S.candidates k, (st.current, rest) :: st.stack, st.visited ++ [k]⟩

/-- What makes it right to pass over nodes that are the same as one entered before. -/
structure Graded (same : κ → κ → Bool) (rank : κ → Nat) (depth : Nat) : Prop where
  rank_lt : ∀ {k k'}, S.Moves k k' → rank k < rank k'
  rank_le : ∀ {k k'}, S.Moves k k' → rank k' ≤ depth
  same_rank : ∀ {k k'}, same k k' = true → rank k = rank k'
  same_solvable : ∀ {k k'}, same k k' = true → S.Solvable goal k → S.Solvable goal k'

/-! ### What the search has explored -/

/-- Only the candidates that are left, and those that led to a node in `active`, can lead to a
goal. -/
structure Tried (active : κ → Prop) (k : κ) (rest : List α) : Prop where
  subset : rest ⊆ S.candidates k
  done : ∀ a ∈ S.candidates k, a ∈ rest ∨
    ∀ k', S.move k a = some k' → S.Solvable goal k' → active k'

/-- The frames below node `k`: each moved to the one above it and has tried what is not left. -/
def Frames (root : κ) : κ → List (κ × List α) → Prop
  | k, [] => k = root
  | k, (k', rest) :: stack =>
    S.Moves k' k ∧ Tried S goal (· = k) k' rest ∧ Frames root k' stack

/-- A node that was entered leads to a goal only if the search is still in it. -/
structure Explored (root : κ) (st : State κ α) : Prop where
  frames : Frames S goal root st.current st.stack
  tried : Tried S goal (fun _ => False) st.current st.rest
  visited : ∀ k ∈ st.visited, S.Solvable goal k → k = st.current ∨ k ∈ st.stack.map (·.1)

variable {S goal} {same : κ → κ → Bool} {rank : κ → Nat} {depth : Nat} {root : κ}

theorem explored_start (root : κ) : Explored S goal root (S.start root) where
  frames := rfl
  tried := ⟨List.Subset.refl _, fun _ ha => .inl ha⟩
  visited _ hk := nomatch hk

/-- A candidate that leads to no goal is done with. -/
theorem Tried.next {active : κ → Prop} {k : κ} {a : α} {rest : List α}
    (h : Tried S goal active k (a :: rest))
    (ha : ∀ k', S.move k a = some k' → S.Solvable goal k' → active k') :
    Tried S goal active k rest where
  subset := fun b hb => h.subset (List.mem_cons_of_mem a hb)
  done b hb := by
    rcases h.done b hb with hmem | hdone
    · rcases List.mem_cons.mp hmem with rfl | hrest
      · exact .inr ha
      · exact .inl hrest
    · exact .inr hdone

theorem Tried.imp {active active' : κ → Prop} {k : κ} {rest : List α}
    (h : Tried S goal active k rest) (himp : ∀ k', S.Solvable goal k' → active k' → active' k') :
    Tried S goal active' k rest where
  subset := h.subset
  done a ha := (h.done a ha).imp_right fun hdone k' hmove hsolvable =>
    himp k' hsolvable (hdone k' hmove hsolvable)

/-- A node with nothing left to try leads to no goal. -/
theorem Tried.not_solvable {k : κ} (h : Tried S goal (fun _ => False) k []) (hgoal : ¬ goal k) :
    ¬ S.Solvable goal k := by
  rw [solvable_iff]
  rintro (hk | ⟨k', ⟨a, ha, hmove⟩, hsolvable⟩)
  · exact hgoal hk
  · rcases h.done a ha with hmem | hdone
    · exact absurd hmem List.not_mem_nil
    · exact hdone k' hmove hsolvable

theorem Frames.rank_lt (hgraded : Graded S goal same rank depth) {k : κ}
    {stack : List (κ × List α)} (h : Frames S goal root k stack) {k' : κ}
    (hk' : k' ∈ stack.map (·.1)) : rank k' < rank k := by
  induction stack generalizing k with
  | nil => cases hk'
  | cons frame stack ih =>
    obtain ⟨k₁, rest⟩ := frame
    obtain ⟨hmove, -, hbelow⟩ := h
    have hlt := hgraded.rank_lt hmove
    rcases List.mem_cons.mp hk' with rfl | hmem
    · exact hlt
    · exact Nat.lt_trans (ih hbelow hmem) hlt

theorem Frames.reaches {k : κ} {stack : List (κ × List α)} (h : Frames S goal root k stack) :
    Relation.ReflTransGen S.Moves root k := by
  induction stack generalizing k with
  | nil =>
    cases h
    exact .refl
  | cons frame stack ih => exact .tail (ih h.2.2) h.1

section Step
variable {st st' : State κ α}

/-- Every step keeps what has been explored. -/
theorem Explored.step (hgraded : Graded S goal same rank depth) (h : Explored S goal root st)
    (hgoal : ¬ goal st.current) (hstep : S.step same st = some st') :
    Explored S goal root st' := by
  obtain ⟨current, rest, stack, visited⟩ := st
  obtain ⟨hframes, htried, hvisited⟩ := h
  cases rest with
  | nil =>
    cases stack with
    | nil => cases hstep
    | cons frame stack =>
      obtain ⟨k, rest⟩ := frame
      cases hstep
      obtain ⟨hmove, hbelow, hframes⟩ := hframes
      -- the node that is left leads to no goal, whichever candidate of the frame led to it
      have hdead := htried.not_solvable hgoal
      refine ⟨hframes, hbelow.imp ?_, ?_⟩
      · rintro k' hsolvable rfl
        exact hdead hsolvable
      · intro k' hk' hsolvable
        rcases hvisited k' hk' hsolvable with rfl | hmem
        · exact absurd hsolvable hdead
        · exact List.mem_cons.mp hmem
  | cons a rest =>
    cases hmove : S.move current a with
    | none =>
      simp only [Search.step, hmove] at hstep
      cases hstep
      refine ⟨hframes, htried.next ?_, hvisited⟩
      intro k' hk'
      rw [hmove] at hk'
      cases hk'
    | some k =>
      have hmoves : S.Moves current k := ⟨a, htried.subset List.mem_cons_self, hmove⟩
      simp only [Search.step, hmove] at hstep
      split at hstep
      case isTrue hany =>
        cases hstep
        refine ⟨hframes, htried.next ?_, hvisited⟩
        intro k' hk' hsolvable
        rw [hmove] at hk'
        cases hk'
        obtain ⟨v, hv, hsame⟩ := List.any_eq_true.mp hany
        -- a node of this rank is above the current one, so it is not on the way to it
        have hrank := hgraded.same_rank hsame
        have hlt := hgraded.rank_lt hmoves
        rcases hvisited v hv (hgraded.same_solvable hsame hsolvable) with rfl | hmem
        · exact absurd hrank.symm (Nat.ne_of_lt hlt)
        · have hbelow : rank v < rank current := hframes.rank_lt hgraded hmem
          omega
      case isFalse =>
        cases hstep
        refine ⟨⟨hmoves, ?_, hframes⟩, ⟨List.Subset.refl _, fun _ ha => .inl ha⟩, ?_⟩
        · refine (htried.imp fun _ _ hfalse => hfalse.elim).next ?_
          intro k' hk' _
          rw [hmove] at hk'
          exact (Option.some.inj hk').symm
        · intro v hv hsolvable
          rcases List.mem_append.mp hv with hold | hnew
          · exact .inr (List.mem_cons.mpr (hvisited v hold hsolvable))
          · exact .inl (List.mem_singleton.mp hnew)

/-- **The search is complete.** When it has nothing left to try, no goal can be reached. -/
theorem Explored.exhausted (h : Explored S goal root st) (hgoal : ¬ goal st.current)
    (hstep : S.step same st = none) : ¬ S.Solvable goal root := by
  obtain ⟨current, rest, stack, visited⟩ := st
  cases rest with
  | nil =>
    cases stack with
    | nil =>
      rw [← h.frames]
      exact h.tried.not_solvable hgoal
    | cons frame stack => cases hstep
  | cons a rest =>
    simp only [Search.step] at hstep
    split at hstep
    · cases hstep
    · split at hstep <;> cases hstep

/-- **The search is sound.** A goal it is at is a goal that can be reached. -/
theorem Explored.found (h : Explored S goal root st) (hgoal : goal st.current) :
    S.Solvable goal root :=
  ⟨st.current, h.frames.reaches, hgoal⟩

/-! ### How long it takes -/

/-- What one candidate can cost at a node. -/
def weight (rank : κ → Nat) (depth width : Nat) (k : κ) : Nat := (width + 2) ^ (depth - rank k)

/-- A bound on the steps that are left. -/
def cost (rank : κ → Nat) (depth width : Nat) (st : State κ α) : Nat :=
  (st.rest.length + 1) * weight rank depth width st.current +
    (st.stack.map fun frame => (frame.2.length + 1) * weight rank depth width frame.1).sum

theorem weight_pos (rank : κ → Nat) (depth width : Nat) (k : κ) :
    0 < weight rank depth width k := Nat.pow_pos (by omega)

/-- All candidates of a node together cost less than the one that led to it. -/
theorem weight_lt (hgraded : Graded S goal same rank depth) {k k' : κ} (hmove : S.Moves k k')
    (width : Nat) :
    (width + 1) * weight rank depth width k' < weight rank depth width k := by
  have hlt := hgraded.rank_lt hmove
  have hle := hgraded.rank_le hmove
  have hexp : depth - rank k' + 1 ≤ depth - rank k := by omega
  calc (width + 1) * weight rank depth width k'
      < (width + 2) * weight rank depth width k' :=
        Nat.mul_lt_mul_of_pos_right (by omega) (weight_pos rank depth width k')
    _ = (width + 2) ^ (depth - rank k' + 1) := by rw [weight, pow_succ, Nat.mul_comm]
    _ ≤ weight rank depth width k := Nat.pow_le_pow_right (by omega) hexp

/-- Every step is one less. -/
theorem cost_step (hgraded : Graded S goal same rank depth) {width : Nat}
    (hwidth : ∀ k, (S.candidates k).length ≤ width) (h : Explored S goal root st)
    (hstep : S.step same st = some st') : cost rank depth width st' < cost rank depth width st := by
  obtain ⟨current, rest, stack, visited⟩ := st
  cases rest with
  | nil =>
    cases stack with
    | nil => cases hstep
    | cons frame stack =>
      cases hstep
      have hpos := weight_pos rank depth width current
      simp only [cost, List.map_cons, List.sum_cons, List.length_nil, Nat.zero_add, Nat.one_mul]
      omega
  | cons a rest =>
    have hpos := weight_pos rank depth width current
    have hskip : cost rank depth width (⟨current, rest, stack, visited⟩ : State κ α) <
        cost rank depth width ⟨current, a :: rest, stack, visited⟩ := by
      simp only [cost, List.length_cons, Nat.add_mul]
      omega
    cases hmove : S.move current a with
    | none =>
      simp only [Search.step, hmove] at hstep
      cases hstep
      exact hskip
    | some k =>
      simp only [Search.step, hmove] at hstep
      split at hstep
      · cases hstep
        exact hskip
      · cases hstep
        have hlt := weight_lt hgraded ⟨a, h.tried.subset List.mem_cons_self, hmove⟩ width
        have hle := Nat.mul_le_mul_right (weight rank depth width k)
          (Nat.add_le_add_right (hwidth k) 1)
        simp only [cost, List.map_cons, List.sum_cons, List.length_cons, Nat.add_mul] at *
        omega

theorem cost_start_le {width : Nat} (hwidth : ∀ k, (S.candidates k).length ≤ width) (k : κ) :
    cost rank depth width (S.start k) ≤ (width + 1) * (width + 2) ^ depth := by
  have hweight : weight rank depth width k ≤ (width + 2) ^ depth :=
    Nat.pow_le_pow_right (by omega) (Nat.sub_le _ _)
  calc cost rank depth width (S.start k)
      = ((S.candidates k).length + 1) * weight rank depth width k := by simp [cost, start]
    _ ≤ (width + 1) * (width + 2) ^ depth :=
        Nat.mul_le_mul (Nat.add_le_add_right (hwidth k) 1) hweight

end Step
end Search
end RaftLabs.Lib
