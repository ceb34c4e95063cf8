import RaftLabs.Lib.Locality
import RaftLabs.Porcupine.Parallel

/-! `checkOperations`: the partitions of a history are checked instead of the history.

A model that partitions by key is a model of one key. The store of all keys steps at the key of the
input, and a history is linearizable for it exactly if the operations of each key are linearizable
for the model of one key. So the checker decides whether a history is one of the whole store. -/
namespace RaftLabs.Porcupine
open Lib
variable {σ ι ο K : Type} {k : Nat}

/-- `checkOperations`, with the search for orders if `verbose`; `timeout` tells whether there is
one. -/
abbrev checkOperations [DecidableEq σ] (model : Model σ ι ο) (sorter : Sorter ι ο)
    (history : List (Operation ι ο)) (verbose timeout : Bool) :=
  checkPartitions (fillDefault model) sorter ((fillDefault model).partition history) verbose timeout

/-! ### A store of many keys -/

section Keyed
variable [DecidableEq K] {model : Automaton σ ι ο} {key : ι → K}
variable {history order : List (Operation ι ο)}

/-- A value for each key, where an operation steps the value of its key. -/
def Automaton.keyed (model : Automaton σ ι ο) (key : ι → K) : Automaton (K → σ) ι ο where
  init := fun _ => model.init
  step s input output :=
    ((model.step (s (key input)) input output).1,
      Function.update s (key input) (model.step (s (key input)) input output).2)

/-- The operations on one key. -/
def operationsOf (key : ι → K) (history : List (Operation ι ο)) (k : K) : List (Operation ι ο) :=
  history.filter (key ·.input = k)

theorem legal_keyed {s : K → σ} :
    (model.keyed key).Legal s order ↔ ∀ k, model.Legal (s k) (operationsOf key order k) := by
  induction order generalizing s with
  | nil => exact ⟨fun _ _ => trivial, fun _ => trivial⟩
  | cons op rest ih =>
    rw [Automaton.Legal, ih]
    constructor
    · rintro ⟨hok, hrest⟩ k
      have hk := hrest k
      by_cases hkey : key op.input = k
      · subst hkey
        simp only [Automaton.keyed, Function.update_self] at hok hk
        simp only [operationsOf, decide_true, List.filter_cons_of_pos]
        exact ⟨hok, hk⟩
      · simp only [Automaton.keyed, Function.update_of_ne (Ne.symm hkey)] at hk
        rwa [operationsOf, List.filter_cons_of_neg (by simpa using hkey)]
    · intro h
      have hop := h (key op.input)
      simp only [operationsOf, decide_true, List.filter_cons_of_pos] at hop
      refine ⟨hop.1, fun k => ?_⟩
      have hk := h k
      by_cases hkey : key op.input = k
      · subst hkey
        simp only [Automaton.keyed, Function.update_self]
        exact hop.2
      · simp only [Automaton.keyed, Function.update_of_ne (Ne.symm hkey)]
        rwa [operationsOf, List.filter_cons_of_neg (by simpa using hkey)] at hk

theorem Explains.operationsOf (h : Explains (model.keyed key) history order) (k : K) :
    Explains model (operationsOf key history k) (operationsOf key order k) where
  perm := h.perm.filter _
  legal := legal_keyed.mp h.legal k
  ordered := h.ordered.sublist List.filter_sublist

/-- **Locality.** A history of the store is linearizable exactly if the operations of each key
are. -/
theorem linearizable_keyed (htimed : Timed history) :
    Linearizable (model.keyed key) history ↔
      ∀ k, Linearizable model (operationsOf key history k) := by
  constructor
  · rintro ⟨order, horder⟩ k
    exact ⟨_, horder.operationsOf k⟩
  · intro h
    choose orders horders using h
    obtain ⟨order, hperm, hordered, hparts⟩ := Locality.exists_merge Operation.call Operation.ret
      (fun op => key op.input) htimed (fun k => (horders k).perm) fun k => (horders k).ordered
    refine ⟨order, hperm, legal_keyed.mpr fun k => ?_, hordered⟩
    rw [operationsOf, hparts k]
    exact (horders k).legal

/-- The parts are the operations of the keys that occur. -/
def PartitionsBy (key : ι → K) (partition : List (Operation ι ο) → List (List (Operation ι ο))) :
    Prop :=
  ∀ history part, part ∈ partition history ↔
    ∃ op ∈ history, part = operationsOf key history (key op.input)

theorem linearizable_of_no_operation (h : ∀ op ∈ history, False) : Linearizable model history := by
  obtain rfl : history = [] := List.eq_nil_iff_forall_not_mem.mpr h
  exact ⟨[], .refl _, trivial, .nil⟩

/-- It is enough to check the parts. -/
theorem linearizable_keyed_iff_partition (htimed : Timed history)
    {partition : List (Operation ι ο) → List (List (Operation ι ο))}
    (hpartition : PartitionsBy key partition) :
    Linearizable (model.keyed key) history ↔ ∀ part ∈ partition history, Linearizable model part := by
  rw [linearizable_keyed htimed]
  constructor
  · intro h part hpart
    obtain ⟨op, -, rfl⟩ := (hpartition history part).mp hpart
    exact h _
  · intro h k
    by_cases hk : ∃ op ∈ history, key op.input = k
    · obtain ⟨op, hop, rfl⟩ := hk
      exact h _ ((hpartition history _).mpr ⟨op, hop, rfl⟩)
    · refine linearizable_of_no_operation fun op hop => hk ?_
      obtain ⟨hmem, hkey⟩ := List.mem_filter.mp hop
      exact ⟨op, hmem, of_decide_eq_true hkey⟩

theorem Timed.partition (htimed : Timed history)
    {partition : List (Operation ι ο) → List (List (Operation ι ο))}
    (hpartition : PartitionsBy key partition) : ∀ part ∈ partition history, Timed part := by
  intro part hpart op hop
  obtain ⟨op', -, rfl⟩ := (hpartition history part).mp hpart
  exact htimed op (List.mem_filter.mp hop).1

theorem PartitionsBy.eq_nil {partition : List (Operation ι ο) → List (List (Operation ι ο))}
    (hpartition : PartitionsBy key partition) (h : partition history = []) : history = [] := by
  refine List.eq_nil_iff_forall_not_mem.mpr fun op hop => ?_
  have hpart := (hpartition history _).mpr ⟨op, hop, rfl⟩
  rw [h] at hpart
  cases hpart

end Keyed

/-! ### The key/value service -/

/-- The map that the key/value service stands for. -/
def kvStore : Automaton (String → String) KvInput KvOutput :=
  Automaton.keyed ⟨"", kvStep⟩ KvInput.key

theorem partitionsBy_kvPartition (order : RangeOrder String) :
    PartitionsBy KvInput.key (kvPartition order) := by
  intro history part
  simp only [kvPartition, List.mem_map, List.mem_insertionSort, RangeOrder.mem_list,
    GoMap.mem_keys_foldl_group, GoMap.getD_foldl_group, GoMap.keys_empty]
  constructor
  · rintro ⟨k, hk | ⟨op, hop, rfl⟩, rfl⟩
    · cases hk
    · exact ⟨op, hop, by simp [operationsOf, GoMap.getD]⟩
  · rintro ⟨op, hop, rfl⟩
    exact ⟨op.input.key, .inr ⟨op, hop, rfl⟩, by simp [operationsOf, GoMap.getD]⟩

section Store
variable {order : RangeOrder String} {sorter : Sorter KvInput KvOutput}
variable {history : List (Operation KvInput KvOutput)} {verbose timeout : Bool}

theorem linearizable_store_iff (htimed : Timed history) :
    Linearizable kvStore history ↔ ∀ part ∈ kvPartition order history,
      Linearizable (fillDefault (kvModel order)).toAutomaton part :=
  linearizable_keyed_iff_partition htimed (partitionsBy_kvPartition order)

theorem checkOperations_result (htimed : Timed history)
    {w : Checking String KvInput KvOutput ((kvPartition order history).map (makeEntries sorter)).length}
    (hw : (checkOperations (kvModel order) sorter history verbose timeout).Reach System.anyStep w)
    {result : CheckResult}
    {partials : Option (Fin ((kvPartition order history).map (makeEntries sorter)).length →
      List (List Int))}
    (hphase : w.phase = .returned result partials) :
    (result = .ok → Linearizable kvStore history) ∧
    (result = .illegal → ¬ Linearizable kvStore history) ∧
    (result = .unknown → timeout = true) := by
  obtain ⟨hok, hillegal, hunknown, -⟩ := checkPartitions_result
    (htimed.partition (partitionsBy_kvPartition order)) (congruent_kvModel order) hw hphase
  refine ⟨fun hresult => (linearizable_store_iff htimed).mpr (hok hresult),
    fun hresult hlin => ?_, hunknown⟩
  obtain ⟨part, hpart, hnot⟩ := hillegal hresult
  exact hnot ((linearizable_store_iff htimed).mp hlin part hpart)

theorem checkOperations_stuck (htimed : Timed history)
    {w : Checking String KvInput KvOutput ((kvPartition order history).map (makeEntries sorter)).length}
    (hw : (checkOperations (kvModel order) sorter history verbose timeout).Reach System.anyStep w)
    (hstuck : ∀ a, (checkOperations (kvModel order) sorter history verbose timeout).step w a =
      none) :
    (∃ result partials, w.phase = .returned result partials) ∨ history = [] ∧ timeout = false := by
  have hpartition := partitionsBy_kvPartition order
  exact (checkPartitions_stuck (htimed.partition hpartition) (congruent_kvModel order) hw
    hstuck).imp_right fun ⟨hnil, htimeout⟩ => ⟨hpartition.eq_nil hnil, htimeout⟩

variable (order sorter verbose timeout) in
theorem checkOperations_bounded (htimed : Timed history) :
    ∃ bound, ∀ acts w, (checkOperations (kvModel order) sorter history verbose timeout).run
      (checkOperations (kvModel order) sorter history verbose timeout).init acts = some w →
        acts.length ≤ bound :=
  checkPartitions_bounded sorter verbose timeout
    (htimed.partition (partitionsBy_kvPartition order)) (congruent_kvModel order)

end Store

/-- **`checkOperations` decides whether a history is one of the store.** Under every schedule
it answers `Ok` only if the operations on all keys can be put in one order that the map explains, and
`Illegal` only if they cannot. It returns in a bounded number of steps, except that without a timeout
it waits for ever on the empty history. -/
theorem checkOperations_decides_store (order : RangeOrder String)
    (sorter : Sorter KvInput KvOutput) {history : List (Operation KvInput KvOutput)}
    (htimed : Timed history) (verbose timeout : Bool) :
    (∀ w, (checkOperations (kvModel order) sorter history verbose timeout).Reach System.anyStep w →
      ∀ result partials, w.phase = .returned result partials →
        (result = .ok → Linearizable kvStore history) ∧
        (result = .illegal → ¬ Linearizable kvStore history) ∧
        (result = .unknown → timeout = true)) ∧
    (∃ bound, ∀ acts w, (checkOperations (kvModel order) sorter history verbose timeout).run
      (checkOperations (kvModel order) sorter history verbose timeout).init acts = some w →
        acts.length ≤ bound) ∧
    ∀ w, (checkOperations (kvModel order) sorter history verbose timeout).Reach System.anyStep w →
      (∀ a, (checkOperations (kvModel order) sorter history verbose timeout).step w a = none) →
      (∃ result partials, w.phase = .returned result partials) ∨
        history = [] ∧ timeout = false :=
  ⟨fun _ hw _ _ hphase => checkOperations_result htimed hw hphase,
    checkOperations_bounded order sorter verbose timeout htimed,
    fun _ hw hstuck => checkOperations_stuck htimed hw hstuck⟩

/-- The operations of `putGet`, and beside them an append to another key. -/
def twoKeys : List (Operation KvInput KvOutput) :=
  putGet ++ [⟨2, ⟨.ofNat 2, "y", "b"⟩, 2, ⟨""⟩, 5⟩]

theorem twoKeys_timed : Timed twoKeys := by
  intro op hop
  rcases List.mem_append.mp hop with hop | hop
  · exact putGet_timed op hop
  · rw [List.mem_singleton.mp hop]
    decide

/-- The goroutine of `y` is done first. -/
def twoWorkersRun (x y : Fin k) : List (CheckAction k) :=
  [.work x, .work y, .work y, .work y, .receive, .work x, .work x, .work x, .receive, .finish]

theorem twoWorkersRun_returns :
    (((checkOperations (kvModel .sorted) insertionSorter twoKeys false false).run
      (checkOperations (kvModel .sorted) insertionSorter twoKeys false false).init
      (twoWorkersRun ⟨0, by decide +kernel⟩ ⟨1, by decide +kernel⟩)).map fun w =>
        decide (w.phase.result = some .ok)) = some true := by
  decide +kernel

theorem checkOperations_decides_store_twoKeys : ∃ w,
    (checkOperations (kvModel .sorted) insertionSorter twoKeys false false).Reach System.anyStep w ∧
      w.phase.result = some .ok ∧ Linearizable kvStore twoKeys := by
  obtain ⟨w, hrun, hev⟩ := Option.map_eq_some_iff.mp twoWorkersRun_returns
  have hresult := of_decide_eq_true hev
  have hreach := System.reach_run .init (fun _ _ => trivial) _ hrun
  obtain ⟨hdecides, -⟩ :=
    checkOperations_decides_store .sorted insertionSorter twoKeys_timed false false
  obtain ⟨partials, hphase⟩ := Phase.returned_of_result hresult
  exact ⟨w, hreach, hresult, (hdecides w hreach .ok partials hphase).1 rfl⟩

end RaftLabs.Porcupine
