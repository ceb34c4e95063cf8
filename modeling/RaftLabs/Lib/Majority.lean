import Mathlib.Data.Fintype.Card
import Mathlib.Data.Finset.Card
import Mathlib.Data.List.FinRange

/-! Majorities of a finite set of voters.

A majority has more than half of the voters, so any two of them share one. -/
namespace RaftLabs.Lib
variable {V : Type} [Fintype V]

/-- More than half of all voters. -/
def Majority (Q : Finset V) : Prop := Fintype.card V < 2 * Q.card

theorem Majority.mono {Q Q' : Finset V} (h : Majority Q) (hsub : Q ⊆ Q') : Majority Q' :=
  Nat.lt_of_lt_of_le h (Nat.mul_le_mul_left 2 (Finset.card_le_card hsub))

variable [DecidableEq V]

/-- Two majorities share a voter. -/
theorem Majority.inter {Q Q' : Finset V} (h : Majority Q) (h' : Majority Q') :
    ∃ v, v ∈ Q ∧ v ∈ Q' := by
  by_contra hnone
  have hdisj : Disjoint Q Q' := by
    rw [Finset.disjoint_left]
    intro v hv hv'
    exact hnone ⟨v, hv, hv'⟩
  have hcard := Finset.card_le_univ (Q ∪ Q')
  rw [Finset.card_union_of_disjoint hdisj] at hcard
  unfold Majority at h h'
  omega

/-- A half rounded down is exceeded exactly by the majorities. -/
theorem majority_of_half {n : Nat} {Q : Finset (Fin n)} (h : n / 2 < Q.card) : Majority Q := by
  unfold Majority
  rw [Fintype.card_fin]
  omega

/-- Counting the servers that pass a test is taking the size of their set. -/
theorem countP_finRange {n : Nat} (p : Fin n → Bool) :
    (List.finRange n).countP p = (Finset.univ.filter fun j => p j = true).card := by
  rw [List.countP_eq_length_filter, ← List.toFinset_card_of_nodup
    ((List.nodup_finRange n).filter p)]
  congr 1
  ext j
  simp

end RaftLabs.Lib
