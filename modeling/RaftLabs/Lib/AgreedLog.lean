import Mathlib.Logic.Function.Basic
import RaftLabs.Lib.Transition

/-! Replicas of a state machine over one agreed log.

The log grows at its end, by a command that was proposed and is not in it yet. A replica applies
the next command of the log to its state, saves its state, takes over a state that some replica
has saved, or starts over from what it saved last. This is what a consensus protocol is for; that
a protocol provides it is a simulation by this system. -/
namespace RaftLabs.Lib

/-- A state machine that knows how many commands its state has seen. `apply o s c k` is the state
after the command `c` at index `k`, `none` where the machine fails; `o` resolves what it leaves
open. The laws are owed for the states it can be in, which are `Valid`. -/
structure Machine (σ κ ω : Type) where
  start : σ
  apply : ω → σ → κ → Nat → Option σ
  position : σ → Nat
  Valid : σ → Prop
  valid_start : Valid start
  position_start : position start = 0
  apply_next : ∀ {o s c s'}, Valid s → apply o s c (position s + 1) = some s' →
    Valid s' ∧ position s' = position s + 1

structure AgreedLog (ι κ σ : Type) where
  log : List κ
  proposals : List κ
  states : ι → σ
  persisted : ι → Option σ
  snapshots : List σ

namespace AgreedLog
variable {ι κ σ ω : Type}

inductive Action (ι κ ω : Type) where
  | propose (c : κ)
  | append (j : Nat)
  | apply (i : ι) (o : ω)
  | snapshot (i : ι)
  | install (i : ι) (j : Nat)
  | restart (i : ι)

def initial (M : Machine σ κ ω) : AgreedLog ι κ σ where
  log := []
  proposals := []
  states := fun _ => M.start
  persisted := fun _ => none
  snapshots := []

section Steps
variable [DecidableEq ι] (M : Machine σ κ ω) (a : AgreedLog ι κ σ)

def setState (i : ι) (s : σ) : AgreedLog ι κ σ :=
  { a with states := Function.update a.states i s }

def propose (c : κ) : AgreedLog ι κ σ := { a with proposals := a.proposals ++ [c] }

def append (j : Nat) (c : κ) : AgreedLog ι κ σ :=
  { a with log := a.log ++ [c], proposals := a.proposals.eraseIdx j }

def snapshot (i : ι) : AgreedLog ι κ σ :=
  { a with
    persisted := Function.update a.persisted i (some (a.states i))
    snapshots := a.snapshots ++ [a.states i] }

/-- Replica `i` saves a state, and continues with it unless it is further on. -/
def install (i : ι) (s : σ) : AgreedLog ι κ σ :=
  { a with
    persisted := Function.update a.persisted i (some s)
    states := Function.update a.states i
      (if M.position (a.states i) < M.position s then s else a.states i) }

def restart (i : ι) : AgreedLog ι κ σ := a.setState i ((a.persisted i).getD M.start)

def step : Action ι κ ω → Option (AgreedLog ι κ σ)
  | .propose c => some (a.propose c)
  | .append j => (a.proposals[j]?).map (a.append j)
  | .apply i o =>
    (a.log[M.position (a.states i)]?).bind fun c =>
      (M.apply o (a.states i) c (M.position (a.states i) + 1)).map (a.setState i)
  | .snapshot i => some (a.snapshot i)
  | .install i j => (a.snapshots[j]?).map (a.install M i)
  | .restart i => some (a.restart M i)

/-- Replicas of `M`. -/
def system : System (AgreedLog ι κ σ) (Action ι κ ω) where
  init := initial M
  step := step M

variable {M a}

theorem run_one {a' : AgreedLog ι κ σ} {act : Action ι κ ω} (h : a.step M act = some a') :
    (system M).run a [act] = some a' := by
  simp [System.run, system, h]

end Steps

/-! ### What every run keeps -/

/-- What holds of a log and a state holds of every state a replica has or has saved, and what is
persisted was saved. -/
structure Everywhere (P : List κ → σ → Prop) (a : AgreedLog ι κ σ) : Prop where
  states : ∀ i, P a.log (a.states i)
  snapshots : ∀ s ∈ a.snapshots, P a.log s
  persisted : ∀ i s, a.persisted i = some s → s ∈ a.snapshots

/-- What a machine keeps: it holds at the start, whatever the log; the log may grow; and the next
command of the log keeps it. -/
structure Kept (M : Machine σ κ ω) (P : List κ → σ → Prop) : Prop where
  start : ∀ log, P log M.start
  mono : ∀ {log s} c, P log s → P (log ++ [c]) s
  next : ∀ {log o s c s'}, P log s → log[M.position s]? = some c →
    M.apply o s c (M.position s + 1) = some s' → P log s'

namespace Everywhere
variable {M : Machine σ κ ω} {P : List κ → σ → Prop} {a a' : AgreedLog ι κ σ}

theorem initial (hP : Kept M P) : Everywhere P (initial M : AgreedLog ι κ σ) where
  states _ := hP.start _
  snapshots _ hs := nomatch hs
  persisted _ _ hp := nomatch hp

theorem append (h : Everywhere P a) (hP : Kept M P) (j : Nat) (c : κ) :
    Everywhere P (a.append j c) where
  states i := hP.mono c (h.states i)
  snapshots s hs := hP.mono c (h.snapshots s hs)
  persisted := h.persisted

theorem save (h : Everywhere P a) {s : σ} (hs : P a.log s) :
    Everywhere P { a with snapshots := a.snapshots ++ [s] } where
  states := h.states
  snapshots s' hs' := by
    rcases List.mem_append.mp hs' with hold | hnew
    · exact h.snapshots s' hold
    · rw [List.mem_singleton.mp hnew]
      exact hs
  persisted j s' hs' := List.mem_append_left _ (h.persisted j s' hs')

variable [DecidableEq ι]

theorem setState (h : Everywhere P a) (i : ι) {s : σ} (hs : P a.log s) :
    Everywhere P (a.setState i s) where
  states := (Function.forall_update_iff a.states fun _ s => P a.log s).mpr
    ⟨hs, fun j _ => h.states j⟩
  snapshots := h.snapshots
  persisted := h.persisted

theorem persist (h : Everywhere P a) (i : ι) {s : σ} (hs : s ∈ a.snapshots) :
    Everywhere P { a with persisted := Function.update a.persisted i (some s) } where
  states := h.states
  snapshots := h.snapshots
  persisted := by
    refine (Function.forall_update_iff a.persisted
      fun _ o => ∀ s, o = some s → s ∈ a.snapshots).mpr ⟨fun s' hs' => ?_, fun j _ => h.persisted j⟩
    cases hs'
    exact hs

theorem snapshot (h : Everywhere P a) (i : ι) : Everywhere P (a.snapshot i) :=
  (h.save (h.states i)).persist i (List.mem_append_right _ (List.mem_singleton_self _))

theorem install (h : Everywhere P a) (i : ι) {s : σ} (hs : s ∈ a.snapshots) :
    Everywhere P (a.install M i s) := by
  refine (h.persist i hs).setState i ?_
  split
  · exact h.snapshots s hs
  · exact h.states i

theorem restart (h : Everywhere P a) (hP : Kept M P) (i : ι) : Everywhere P (a.restart M i) := by
  refine h.setState i ?_
  cases hp : a.persisted i with
  | none => exact hP.start _
  | some s => exact h.snapshots s (h.persisted i s hp)

theorem step (h : Everywhere P a) (hP : Kept M P) {act : Action ι κ ω}
    (hstep : a.step M act = some a') : Everywhere P a' := by
  cases act with
  | propose c =>
    cases hstep
    exact ⟨h.states, h.snapshots, h.persisted⟩
  | append j =>
    obtain ⟨c, -, rfl⟩ := Option.map_eq_some_iff.mp hstep
    exact h.append hP j c
  | apply i o =>
    obtain ⟨c, hc, happly⟩ := Option.bind_eq_some_iff.mp hstep
    obtain ⟨s, hs, rfl⟩ := Option.map_eq_some_iff.mp happly
    exact h.setState i (hP.next (h.states i) hc hs)
  | snapshot i =>
    cases hstep
    exact h.snapshot i
  | install i j =>
    obtain ⟨s, hs, rfl⟩ := Option.map_eq_some_iff.mp hstep
    exact h.install i (List.mem_of_getElem? hs)
  | restart i =>
    cases hstep
    exact h.restart hP i

end Everywhere

/-- What a machine keeps holds of every replica in every run. -/
theorem Kept.everywhere [DecidableEq ι] {M : Machine σ κ ω} {P : List κ → σ → Prop} (hP : Kept M P)
    {a : AgreedLog ι κ σ} (h : (system M).Reach System.anyStep a) : Everywhere P a :=
  h.invariant (.initial hP) fun _ _ _ _ he _ hstep => he.step hP hstep

/-- A state of the machine that has seen no more than the log. -/
def Reached (M : Machine σ κ ω) (log : List κ) (s : σ) : Prop :=
  M.Valid s ∧ M.position s ≤ log.length

theorem kept_reached (M : Machine σ κ ω) : Kept M (Reached M) where
  start _ := ⟨M.valid_start, by rw [M.position_start]; exact Nat.zero_le _⟩
  mono _ h := ⟨h.1, Nat.le_trans h.2 (by simp)⟩
  next h hc hs := by
    obtain ⟨hvalid, hposition⟩ := M.apply_next h.1 hs
    have hlt := (List.getElem?_eq_some_iff.mp hc).1
    exact ⟨hvalid, by omega⟩

/-- Every state is one of the machine. -/
abbrev Sound (M : Machine σ κ ω) (a : AgreedLog ι κ σ) : Prop := Everywhere (Reached M) a

end AgreedLog
end RaftLabs.Lib
