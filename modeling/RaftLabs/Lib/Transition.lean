import Mathlib.Logic.Basic
import Mathlib.Data.List.Basic

/-! Transition systems driven by explicit actions.

A system is an initial state and a partial step function: `step s a = none` when
the action `a` is not enabled in `s`. Every nondeterministic choice is part of
the action, so a run is a list of actions and can be evaluated. `Reach S ok`
holds of the states some run reaches all of whose steps satisfy `ok`, a predicate
of the action and the state it is taken in; restricting `ok` is how a class of
runs is named. -/
namespace RaftLabs.Lib

/-- An initial state and the partial effect of every action. -/
structure System (σ α : Type) where
  init : σ
  step : σ → α → Option σ

namespace System
variable {σ α : Type}

/-- The states reached by runs whose steps all satisfy `ok`. -/
inductive Reach (S : System σ α) (ok : σ → α → Prop) : σ → Prop where
  | init : Reach S ok S.init
  | step {s s' : σ} {a : α} (hs : Reach S ok s) (hok : ok s a) (h : S.step s a = some s') :
      Reach S ok s'

/-- Every step is allowed. -/
def anyStep : σ → α → Prop := fun _ _ => True

instance (s : σ) (a : α) : Decidable (anyStep s a) := .isTrue trivial

variable {S : System σ α} {ok ok' : σ → α → Prop}

/-- The invariant rule: what holds at the start and survives every allowed step
from a reachable state holds of every reachable state. -/
theorem Reach.invariant {P : σ → Prop} (hinit : P S.init)
    (hstep : ∀ s a s', Reach S ok s → P s → ok s a → S.step s a = some s' → P s')
    {s : σ} (h : Reach S ok s) : P s := by
  induction h with
  | init => exact hinit
  | step hs hok h ih => exact hstep _ _ _ hs ih hok h

/-- Runs of a class are runs of any class whose condition follows from it in the
states reached. -/
theorem Reach.mono (himp : ∀ s a, Reach S ok s → Reach S ok' s → ok s a → ok' s a) {s : σ}
    (h : Reach S ok s) : Reach S ok' s := by
  induction h with
  | init => exact .init
  | step hs hok h ih => exact .step ih (himp _ _ hs ih hok) h

/-- The effect of a list of actions. -/
def run (S : System σ α) (s : σ) : List α → Option σ
  | [] => some s
  | a :: rest => (S.step s a).bind fun s' => S.run s' rest

/-- A list of actions that runs leads to a reachable state, when every step it
takes is allowed. -/
theorem reach_run {s s' : σ} (hs : Reach S ok s) (hok : ∀ t a, ok t a) (as : List α)
    (h : S.run s as = some s') : Reach S ok s' := by
  induction as generalizing s with
  | nil =>
    cases h
    exact hs
  | cons a rest ih =>
    simp only [run, Option.bind_eq_some_iff] at h
    obtain ⟨t, ht, hrest⟩ := h
    exact ih (.step hs (hok s a) ht) hrest

/-- The effect of a list of actions that checks each step before it is taken. -/
def runWhere (S : System σ α) (ok : σ → α → Prop) [∀ s a, Decidable (ok s a)] (s : σ) :
    List α → Option σ
  | [] => some s
  | a :: rest => if ok s a then (S.step s a).bind fun s' => S.runWhere ok s' rest else none

theorem reach_runWhere [∀ s a, Decidable (ok s a)] {s s' : σ} (hs : Reach S ok s) (as : List α)
    (h : S.runWhere ok s as = some s') : Reach S ok s' := by
  induction as generalizing s with
  | nil =>
    cases h
    exact hs
  | cons a rest ih =>
    simp only [runWhere, Option.ite_none_right_eq_some, Option.bind_eq_some_iff] at h
    obtain ⟨hok, t, ht, hrest⟩ := h
    exact ih (.step hs hok ht) hrest

/-- An allowed run to a state with `p` shows that such a state can be reached. -/
theorem exists_reach_of_runWhere [∀ s a, Decidable (ok s a)] {as : List α} {p : σ → Prop}
    {hp : DecidablePred p}
    (h : (S.runWhere ok S.init as).map (fun s => decide (p s)) = some true) :
    ∃ s, Reach S ok s ∧ p s := by
  obtain ⟨s, hrun, hs⟩ := Option.map_eq_some_iff.mp h
  exact ⟨s, reach_runWhere .init as hrun, of_decide_eq_true hs⟩

/-- The variant rule: where every step leaves a smaller bound, a run is no longer than its bound. -/
theorem length_le_of_run {P : σ → Nat → Prop}
    (hstep : ∀ s a s' m, P s m → S.step s a = some s' → ∃ m' < m, P s' m') {s s' : σ} {m : Nat}
    (hs : P s m) {as : List α} (h : S.run s as = some s') : as.length ≤ m := by
  induction as generalizing s m with
  | nil => exact Nat.zero_le m
  | cons a rest ih =>
    simp only [run, Option.bind_eq_some_iff] at h
    obtain ⟨t, ht, hrest⟩ := h
    obtain ⟨m', hlt, hm'⟩ := hstep s a t m hs ht
    exact Nat.lt_of_le_of_lt (ih hm' hrest) hlt

/-! ### Later states, and what a run has seen -/

/-- The same system started elsewhere: its runs are what can follow `s`. -/
def startingAt (S : System σ α) (s : σ) : System σ α := { S with init := s }

theorem reach_startingAt {s s' : σ} (hs : Reach S ok s) (h : Reach (S.startingAt s) ok s') :
    Reach S ok s' := by
  induction h with
  | init => exact hs
  | step _ hok hstep ih => exact .step ih hok hstep

variable (S ok) in
/-- The progress rule: where every state with `P` that has not reached the goal can go on to one
with `P` and a smaller bound, it can go on to the goal. -/
theorem exists_reach_goal (P goal : σ → Prop) (bound : σ → Nat)
    (hround : ∀ s, P s → ¬ goal s → ∃ t, Reach (S.startingAt s) ok t ∧ P t ∧ bound t < bound s)
    {s : σ} (hs : P s) : ∃ t, Reach (S.startingAt s) ok t ∧ P t ∧ goal t := by
  induction hb : bound s using Nat.strongRecOn generalizing s with
  | ind b ih =>
    by_cases hgoal : goal s
    · exact ⟨s, .init, hs, hgoal⟩
    · obtain ⟨t, ht, hPt, hlt⟩ := hround s hs hgoal
      obtain ⟨u, hu, hPu, hgoalu⟩ := ih (bound t) (hb ▸ hlt) hPt rfl
      exact ⟨u, reach_startingAt ht hu, hPu, hgoalu⟩

/-- The system with a record of what `seen` finds in every step. -/
def record {β : Type} (S : System σ α) (seen : σ → α → List β) : System (σ × List β) α where
  init := (S.init, [])
  step s a := (S.step s.1 a).map fun s' => (s', s.2 ++ seen s.1 a)

theorem record_step {β : Type} {seen : σ → α → List β} {s s' : σ × List β} {a : α} :
    (S.record seen).step s a = some s' ↔
      S.step s.1 a = some s'.1 ∧ s'.2 = s.2 ++ seen s.1 a := by
  simp only [record, Option.map_eq_some_iff]
  constructor
  · rintro ⟨t, ht, rfl⟩
    exact ⟨ht, rfl⟩
  · rintro ⟨ht, hseen⟩
    exact ⟨s'.1, ht, by rw [← hseen]⟩

/-- Recording changes no run. -/
theorem reach_record {β : Type} {seen : σ → α → List β} {s : σ × List β}
    (h : Reach (S.record seen) (fun s a => ok s.1 a) s) : Reach S ok s.1 := by
  induction h with
  | init => exact .init
  | step _ hok hstep ih => exact .step ih hok (record_step.mp hstep).1

/-! ### Simulation -/

section Simulation
variable {τ β : Type} {T : System τ β} {ok' : τ → β → Prop}

/-- The simulation rule: where every allowed step of `S` is one of `T`, seen through `f` and `g`,
every run of `S` is one of `T`. -/
theorem Reach.map (f : σ → τ) (g : α → β) (hinit : f S.init = T.init)
    (hstep : ∀ s a s', Reach S ok s → ok s a → S.step s a = some s' →
      ok' (f s) (g a) ∧ T.step (f s) (g a) = some (f s')) {s : σ} (h : Reach S ok s) :
    Reach T ok' (f s) := by
  induction h with
  | init => exact hinit ▸ .init
  | step hs hok h ih =>
    obtain ⟨hok', h'⟩ := hstep _ _ _ hs hok h
    exact .step ih hok' h'

/-- The same with a record of what can be seen in `T`. -/
theorem Reach.map_record {γ : Type} {seen : τ → β → List γ} (f : σ → τ) (g : α → β)
    (hinit : f S.init = T.init)
    (hstep : ∀ s a s', Reach S ok s → ok s a → S.step s a = some s' →
      ok' (f s) (g a) ∧ T.step (f s) (g a) = some (f s')) {s : σ × List γ}
    (h : Reach (S.record fun s a => seen (f s) (g a)) (fun s a => ok s.1 a) s) :
    Reach (T.record seen) (fun s a => ok' s.1 a) (f s.1, s.2) := by
  refine h.map (T := T.record seen) (fun s => (f s.1, s.2)) g (congrArg (·, []) hinit)
    fun s a s' hs hok h => ?_
  obtain ⟨hS, hseen⟩ := record_step.mp h
  obtain ⟨hok', hT⟩ := hstep _ _ _ (reach_record hs) hok hS
  exact ⟨hok', record_step.mpr ⟨hT, hseen⟩⟩

end Simulation

/-- Every step that the list of actions takes satisfies `P` in the state it is taken in. -/
def Along (S : System σ α) (P : σ → α → Prop) (s : σ) : List α → Prop
  | [] => True
  | a :: rest => P s a ∧ match S.step s a with
    | none => True
    | some s' => S.Along P s' rest

instance decidableAlong (S : System σ α) (P : σ → α → Prop) [∀ s a, Decidable (P s a)] :
    (s : σ) → (as : List α) → Decidable (S.Along P s as)
  | _, [] => isTrue trivial
  | s, a :: rest =>
    let _ : Decidable (match S.step s a with
        | none => True
        | some s' => S.Along P s' rest) :=
      match S.step s a with
      | none => isTrue trivial
      | some s' => decidableAlong S P s' rest
    inferInstanceAs (Decidable (_ ∧ _))

end System
end RaftLabs.Lib
