import Mathlib.Algebra.BigOperators.Group.Finset.Basic
import Mathlib.Algebra.Order.BigOperators.Group.Finset
import Mathlib.Data.Fintype.Card
import Mathlib.Data.List.ReduceOption
import RaftLabs.Lib.Transition
import RaftLabs.Porcupine.CheckSingle

/-! `checkParallel`: one goroutine for each partition, and a timeout.

The goroutines run `checkSingle` beside each other and send what it returns over a channel. The
main goroutine receives until it has every result, until one is false (if it need not collect
information), or until the timeout; then it tells the others to stop, and if it collects
information it waits for them. Which goroutine is next is up to the scheduler. -/
namespace RaftLabs.Porcupine
open Lib
variable {σ ι ο : Type} {k : Nat}

inductive CheckResult where
  | unknown
  | ok
  | illegal
deriving DecidableEq

/-- A goroutine: in `checkSingle`, about to send its result, or done. -/
inductive Worker (σ ι ο : Type) where
  | running (s : CheckState σ ι ο)
  | returned (ok : Bool) (longest : Longest)
  | sent

/-- Where the main goroutine is: in its `select`, behind the loop, or back. -/
inductive Phase (k : Nat) where
  | select
  | wait
  | returned (result : CheckResult) (partials : Option (Fin k → List (List Int)))

/-- The variables of `checkParallel` for `k` partitions; `results` is what the channel holds. -/
structure Checking (σ ι ο : Type) (k : Nat) where
  workers : Fin k → Worker σ ι ο
  longest : Fin k → Longest
  results : List Bool
  kill : Bool
  ok : Bool
  timedOut : Bool
  count : Nat
  phase : Phase k

namespace Checking
variable (w : Checking σ ι ο k)

def setWorker (i : Fin k) (worker : Worker σ ι ο) : Checking σ ι ο k :=
  { w with workers := Function.update w.workers i worker }

/-- A round of `checkSingle` in goroutine `i`, or its last two statements. -/
def work (model : FullModel σ ι ο) (computeInfo : Bool) (i : Fin k) : Option (Checking σ ι ο k) :=
  match w.workers i with
  | .running s =>
    (s.iterate model computeInfo w.kill).map fun progress =>
      match progress with
      | .running s => w.setWorker i (.running s)
      | .returned ok l => w.setWorker i (.returned ok l)
  | .returned ok l =>
    some { w.setWorker i .sent with
      longest := Function.update w.longest i l
      results := w.results ++ [ok] }
  | .sent => none

/-- `case result := <-results`. -/
def receive (computeInfo : Bool) (result : Bool) (results : List Bool) : Checking σ ι ο k :=
  let w := { w with results := results, count := w.count + 1, ok := w.ok && result }
  if !w.ok && !computeInfo then { w with kill := true, phase := .wait }
  else if k ≤ w.count then { w with phase := .wait }
  else w

/-- `case <-timeoutChan`. -/
def timeOut : Checking σ ι ο k := { w with timedOut := true, kill := true, phase := .wait }

def result : CheckResult :=
  if !w.ok then .illegal else if w.timedOut then .unknown else .ok

/-- The different orders that were reported for the operations of each partition. -/
def partials (i : Fin k) : List (List Int) := (w.longest i).reduceOption.dedup

end Checking

/-- The scheduler's choices. -/
inductive CheckAction (k : Nat) where
  | work (i : Fin k)
  | receive
  | timeOut
  | drain
  | finish

def Checking.step (model : FullModel σ ι ο) (computeInfo timeout : Bool) (w : Checking σ ι ο k) :
    CheckAction k → Option (Checking σ ι ο k)
  | .work i => w.work model computeInfo i
  | .receive =>
    match w.phase, w.results with
    | .select, result :: results => some (w.receive computeInfo result results)
    | _, _ => none
  | .timeOut =>
    match w.phase with
    | .select => if timeout then some w.timeOut else none
    | _ => none
  | .drain =>
    match w.phase, w.results with
    | .wait, _ :: results =>
      if computeInfo ∧ w.count < k then some { w with results := results, count := w.count + 1 }
      else none
    | _, _ => none
  | .finish =>
    match w.phase with
    | .wait =>
      if computeInfo ∧ w.count < k then none
      else some { w with
        phase := .returned w.result (if computeInfo then some w.partials else none) }
    | _ => none

/-- `checkParallel`; `timeout` tells whether there is one. -/
def checkParallel (model : FullModel σ ι ο) (history : List (List (Entry ι ο)))
    (computeInfo timeout : Bool) : System (Checking σ ι ο history.length)
      (CheckAction history.length) where
  init :=
    { workers := fun i => .running (startSingle model (history.get i))
      longest := fun _ => []
      results := []
      kill := false
      ok := true
      timedOut := false
      count := 0
      phase := .select }
  step := Checking.step model computeInfo timeout

/-! ### What holds in every run -/

section Invariant
variable {model : FullModel σ ι ο} {sorter : Sorter ι ο} {computeInfo timeout : Bool}
variable {part : Fin k → List (Operation ι ο)} {w w' : Checking σ ι ο k} {m : Nat}

/-- A goroutine that can take so many steps. What it is about to send is right, or it was told to
stop. -/
def Worker.Sound (model : FullModel σ ι ο) (sorter : Sorter ι ο)
    (part : List (Operation ι ο)) (kill : Bool) : Worker σ ι ο → Nat → Prop
  | .running s, cost => ∃ rounds, Searching model part sorter s rounds ∧ rounds + 2 ≤ cost
  | .returned ok longest, cost => Answers model part kill ok longest ∧ 1 ≤ cost
  | .sent, _ => True

open Classical in
/-- The right result of a partition. -/
noncomputable def lin (model : FullModel σ ι ο) (part : Fin k → List (Operation ι ο)) (i : Fin k) :
    Bool :=
  decide (Linearizable model.toAutomaton (part i))

theorem lin_eq_true {i : Fin k} : lin model part i = true ↔ Linearizable model.toAutomaton (part i) := by
  simp [lin]

theorem lin_eq_false {i : Fin k} : lin model part i = false ↔ ¬ Linearizable model.toAutomaton (part i) := by
  simp [lin]

/-- What the main goroutine knows behind the loop. -/
structure Decided (model : FullModel σ ι ο) (part : Fin k → List (Operation ι ο)) (timeout : Bool)
    (ok timedOut : Bool) : Prop where
  illegal : ok = false → ∃ i, ¬ Linearizable model.toAutomaton (part i)
  legal : ok = true → timedOut = false → ∀ i, Linearizable model.toAutomaton (part i)
  timedOut : timedOut = true → timeout = true

/-- While the main goroutine receives, the goroutines in `order` have sent their results, which are
right, and it has received those of the first ones. -/
structure Collected (model : FullModel σ ι ο) (part : Fin k → List (Operation ι ο))
    (w : Checking σ ι ο k) (order : List (Fin k)) : Prop where
  kill : w.kill = false
  timedOut : w.timedOut = false
  some_left : w.count < k ∨ k = 0
  results : w.results = (order.drop w.count).map (lin model part)
  ok : w.ok = (order.take w.count).all (lin model part)

/-- The next result. -/
theorem Collected.next {order : List (Fin k)} (h : Collected model part w order) {result : Bool}
    {results : List Bool} (hresults : w.results = result :: results) :
    results = (order.drop (w.count + 1)).map (lin model part) ∧
      (w.ok && result) = (order.take (w.count + 1)).all (lin model part) := by
  have hres := h.results
  have hlt : w.count < order.length := by
    by_contra hge
    rw [List.drop_of_length_le (Nat.le_of_not_lt hge), hresults] at hres
    cases hres
  rw [hresults, List.drop_eq_getElem_cons hlt, List.map_cons] at hres
  obtain ⟨hresult, hrest⟩ := List.cons.inj hres
  refine ⟨hrest, ?_⟩
  rw [List.take_add_one, List.getElem?_eq_getElem hlt, List.all_append, ← h.ok, hresult]
  simp

def Phase.weight : Phase k → Nat
  | .select => 2
  | .wait => 1
  | .returned _ _ => 0

structure Checking.Sound (model : FullModel σ ι ο) (sorter : Sorter ι ο)
    (part : Fin k → List (Operation ι ο)) (timeout : Bool) (w : Checking σ ι ο k) (m : Nat) :
    Prop where
  workers : ∃ cost : Fin k → Nat,
    (∀ i, (w.workers i).Sound model sorter (part i) w.kill (cost i)) ∧
    ∑ i, cost i + (k - w.count) + w.phase.weight ≤ m
  sent : ∃ order : List (Fin k), order.Nodup ∧ (∀ i, i ∈ order ↔ w.workers i = .sent) ∧
    w.count + w.results.length = order.length ∧
    (w.phase = .select → Collected model part w order)
  decided : w.phase ≠ .select → Decided model part timeout w.ok w.timedOut
  result : ∀ result partials, w.phase = .returned result partials → result = w.result ∧
    ∀ ps, partials = some ps → ∀ i, ∀ seq ∈ ps i, Partial model (part i) seq
  reported : ∀ i seq, some seq ∈ w.longest i → Partial model (part i) seq

theorem Worker.Sound.mono {part : List (Operation ι ο)} {kill kill' : Bool} {worker : Worker σ ι ο}
    {cost : Nat} (h : worker.Sound model sorter part kill cost)
    (himp : kill = true → kill' = true) : worker.Sound model sorter part kill' cost := by
  cases worker with
  | running s => exact h
  | returned ok longest => exact ⟨h.1.mono himp, h.2⟩
  | sent => trivial

theorem sum_update_lt {cost : Fin k → Nat} {i : Fin k} {c : Nat} (hlt : c < cost i) :
    ∑ j, Function.update cost i c j < ∑ j, cost j := by
  refine Finset.sum_lt_sum (fun j _ => ?_) ⟨i, Finset.mem_univ i, ?_⟩
  · by_cases hji : j = i
    · rw [hji, Function.update_self]
      exact hlt.le
    · rw [Function.update_of_ne hji]
  · rwa [Function.update_self]

namespace Checking.Sound

/-- The results in the channel and those that were received are fewer than there are partitions. -/
theorem count_le (h : w.Sound model sorter part timeout m) : w.count + w.results.length ≤ k := by
  obtain ⟨order, hnodup, -, hlength, -⟩ := h.sent
  rw [hlength]
  exact hnodup.length_le_card.trans_eq (Fintype.card_fin k)

/-- A goroutine goes on in `checkSingle`, or returns from it. -/
theorem setWorker (h : w.Sound model sorter part timeout m) {i : Fin k} {worker : Worker σ ι ο}
    (hold : w.workers i ≠ .sent) (hnew : worker ≠ .sent)
    (hworker : ∀ cost, (w.workers i).Sound model sorter (part i) w.kill cost →
      ∃ cost' < cost, worker.Sound model sorter (part i) w.kill cost') :
    ∃ m' < m, (w.setWorker i worker).Sound model sorter part timeout m' := by
  obtain ⟨cost, hcost, hle⟩ := h.workers
  obtain ⟨cost', hlt, hsound⟩ := hworker (cost i) (hcost i)
  obtain ⟨order, hnodup, hmem, hlength, hcollected⟩ := h.sent
  have hsum := sum_update_lt hlt
  refine ⟨∑ j, Function.update cost i cost' j + (k - w.count) + w.phase.weight, by omega,
    ⟨_, fun j => ?_, Nat.le_refl _⟩, ⟨order, hnodup, fun j => ?_, hlength, fun hphase => ?_⟩,
    h.decided, h.result, h.reported⟩
  · by_cases hji : j = i
    · subst hji
      simp only [Checking.setWorker, Function.update_self]
      exact hsound
    · simp only [Checking.setWorker, Function.update_of_ne hji]
      exact hcost j
  · rw [hmem j]
    by_cases hji : j = i
    · subst hji
      simp [Checking.setWorker, hold, hnew]
    · simp [Checking.setWorker, Function.update_of_ne hji]
  · obtain ⟨hkill, htimedOut, hleft, hresults, hok⟩ := hcollected hphase
    exact ⟨hkill, htimedOut, hleft, hresults, hok⟩

/-- A goroutine sends its result. -/
theorem send (h : w.Sound model sorter part timeout m) {i : Fin k} {ok : Bool} {longest : Longest}
    (hworker : w.workers i = .returned ok longest) :
    ∃ m' < m, Checking.Sound model sorter part timeout
      { w.setWorker i .sent with
        longest := Function.update w.longest i longest
        results := w.results ++ [ok] } m' := by
  obtain ⟨cost, hcost, hle⟩ := h.workers
  have hcosti := hcost i
  rw [hworker] at hcosti
  obtain ⟨hanswers, hpos⟩ := hcosti
  obtain ⟨order, hnodup, hmem, hlength, hcollected⟩ := h.sent
  have hsum : ∑ j, Function.update cost i 0 j < ∑ j, cost j := sum_update_lt hpos
  have hnew : i ∉ order := by
    rw [hmem, hworker]
    exact fun hsent => by cases hsent
  refine ⟨∑ j, Function.update cost i 0 j + (k - w.count) + w.phase.weight, by omega,
    ⟨_, fun j => ?_, Nat.le_refl _⟩, ⟨order ++ [i], ?_, fun j => ?_, ?_, fun hphase => ?_⟩,
    h.decided, h.result, fun j seq hseq => ?_⟩
  · by_cases hji : j = i
    · subst hji
      simp only [Checking.setWorker, Function.update_self]
      trivial
    · simp only [Checking.setWorker, Function.update_of_ne hji]
      exact hcost j
  · refine List.nodup_append.mpr ⟨hnodup, List.nodup_singleton i, fun j hj i' hi' hji => hnew ?_⟩
    rw [← List.mem_singleton.mp hi', ← hji]
    exact hj
  · rw [List.mem_append, List.mem_singleton, hmem j]
    by_cases hji : j = i
    · simp [hji, Checking.setWorker]
    · simp [hji, Checking.setWorker]
  · show w.count + (w.results ++ [ok]).length = (order ++ [i]).length
    simp only [List.length_append, List.length_singleton]
    omega
  · obtain ⟨hkill, htimedOut, hleft, hresults, hok⟩ := hcollected hphase
    have hcount : w.count ≤ order.length := by omega
    -- nobody has told the goroutine to stop, so its result is right
    have hright : ok = lin model part i := by
      cases ok with
      | true => exact (lin_eq_true.mpr (hanswers.sound rfl)).symm
      | false =>
        have hcomplete := hanswers.complete rfl
        rw [hkill] at hcomplete
        exact (lin_eq_false.mpr (hcomplete.resolve_left Bool.false_ne_true)).symm
    refine ⟨hkill, htimedOut, hleft, ?_, ?_⟩
    · show w.results ++ [ok] = ((order ++ [i]).drop w.count).map (lin model part)
      rw [List.drop_append_of_le_length hcount, List.map_append, ← hresults, hright]
      rfl
    · show w.ok = ((order ++ [i]).take w.count).all (lin model part)
      rw [List.take_append_of_le_length hcount, ← hok]
  · by_cases hji : j = i
    · subst hji
      simp only [Function.update_self] at hseq
      exact hanswers.reported seq hseq
    · simp only [Function.update_of_ne hji] at hseq
      exact h.reported j seq hseq

/-- A goroutine takes a step. -/
theorem work (htimed : ∀ i, Timed (part i)) (hequal : model.Congruent)
    (h : w.Sound model sorter part timeout m) {i : Fin k}
    (hstep : w.work model computeInfo i = some w') :
    ∃ m' < m, w'.Sound model sorter part timeout m' := by
  cases hworker : w.workers i with
  | running s =>
    simp only [Checking.work, hworker] at hstep
    obtain ⟨progress, hiterate, rfl⟩ := Option.map_eq_some_iff.mp hstep
    have hold : w.workers i ≠ .sent := by
      rw [hworker]
      exact fun hsent => by cases hsent
    have hiter : ∀ cost, (w.workers i).Sound model sorter (part i) w.kill cost →
        (∃ s', progress = .running s' ∧ ∃ cost' < cost,
          (Worker.running s').Sound model sorter (part i) w.kill cost') ∨
        (∃ ok longest, progress = .returned ok longest ∧ ∃ cost' < cost,
          (Worker.returned ok longest).Sound model sorter (part i) w.kill cost') := by
      intro cost hcost
      rw [hworker] at hcost
      obtain ⟨rounds, hsearching, hle⟩ := hcost
      rcases hsearching.iterate (htimed i) hequal computeInfo w.kill with
        ⟨s', rounds', hs', hless, hsearching'⟩ | ⟨ok, longest, hs', hanswers⟩
      · rw [hiterate] at hs'
        cases hs'
        exact .inl ⟨s', rfl, rounds' + 2, by omega, rounds', hsearching', Nat.le_refl _⟩
      · rw [hiterate] at hs'
        cases hs'
        exact .inr ⟨ok, longest, rfl, 1, by omega, hanswers, Nat.le_refl _⟩
    cases progress with
    | running s' =>
      refine h.setWorker hold (fun hsent => by cases hsent) fun cost hcost => ?_
      rcases hiter cost hcost with ⟨s'', heq, hresult⟩ | ⟨_, _, heq, -⟩
      · cases heq
        exact hresult
      · cases heq
    | returned ok longest =>
      refine h.setWorker hold (fun hsent => by cases hsent) fun cost hcost => ?_
      rcases hiter cost hcost with ⟨_, heq, -⟩ | ⟨ok', longest', heq, hresult⟩
      · cases heq
      · cases heq
        exact hresult
  | returned ok longest =>
    simp only [Checking.work, hworker] at hstep
    cases hstep
    exact h.send hworker
  | sent =>
    simp only [Checking.work, hworker] at hstep
    cases hstep

/-- The main goroutine leaves its loop, or receives; the goroutines may be told to stop. -/
theorem advance (h : w.Sound model sorter part timeout m)
    (hworkers : w'.workers = w.workers) (hlongest : w'.longest = w.longest)
    (hkill : w.kill = true → w'.kill = true)
    (hless : k - w'.count + w'.phase.weight < k - w.count + w.phase.weight)
    (hlength : w'.count + w'.results.length = w.count + w.results.length)
    (hcollected : ∀ order : List (Fin k), order.Nodup → (w.phase = .select →
      Collected model part w order) → w'.phase = .select → Collected model part w' order)
    (hdecided : w'.phase ≠ .select → Decided model part timeout w'.ok w'.timedOut)
    (hresult : ∀ result partials, w'.phase = .returned result partials → result = w'.result ∧
      ∀ ps, partials = some ps → ∀ i, ∀ seq ∈ ps i, Partial model (part i) seq) :
    ∃ m' < m, w'.Sound model sorter part timeout m' := by
  obtain ⟨cost, hcost, hle⟩ := h.workers
  obtain ⟨order, hnodup, hmem, hlen, hcol⟩ := h.sent
  refine ⟨∑ j, cost j + (k - w'.count) + w'.phase.weight, by omega,
    ⟨cost, fun i => ?_, Nat.le_refl _⟩,
    ⟨order, hnodup, fun i => ?_, hlength.trans hlen, hcollected order hnodup hcol⟩,
    hdecided, hresult, fun i seq hseq => ?_⟩
  · rw [hworkers]
    exact (hcost i).mono hkill
  · rw [hworkers]
    exact hmem i
  · rw [hlongest] at hseq
    exact h.reported i seq hseq

/-- The main goroutine receives a result. -/
theorem receive (h : w.Sound model sorter part timeout m) (hphase : w.phase = .select)
    {result : Bool} {results : List Bool} (hresults : w.results = result :: results) :
    ∃ m' < m, (w.receive computeInfo result results).Sound model sorter part timeout m' := by
  obtain ⟨order, hnodup, -, hlength, hcollected⟩ := h.sent
  obtain ⟨-, hok⟩ := (hcollected hphase).next hresults
  have hcount := h.count_le
  rw [hresults, List.length_cons] at hcount hlength
  have hillegal : (w.ok && result) = false → ∃ i, ¬ Linearizable model.toAutomaton (part i) := by
    intro hfalse
    rw [hok, List.all_eq_false] at hfalse
    obtain ⟨i, -, hi⟩ := hfalse
    exact ⟨i, lin_eq_false.mp (Bool.eq_false_of_not_eq_true hi)⟩
  -- the last result: every goroutine is in the order
  have hlegal : (w.ok && result) = true → k ≤ w.count + 1 →
      ∀ i, Linearizable model.toAutomaton (part i) := by
    intro htrue hk i
    have hall : order.toFinset = Finset.univ := by
      refine Finset.eq_univ_of_card _ ?_
      rw [List.toFinset_card_of_nodup hnodup, Fintype.card_fin]
      omega
    rw [hok, List.take_of_length_le (by omega), List.all_eq_true] at htrue
    exact lin_eq_true.mp (htrue i (List.mem_toFinset.mp (hall ▸ Finset.mem_univ i)))
  have htimedOut := (hcollected hphase).timedOut
  have hdecided : (w.ok && result) = false ∨ k ≤ w.count + 1 →
      Decided model part timeout (w.ok && result) w.timedOut := by
    intro hcase
    refine ⟨hillegal, fun htrue _ => hlegal htrue ?_, fun htrue => ?_⟩
    · rcases hcase with hfalse | hk
      · rw [htrue] at hfalse
        cases hfalse
      · exact hk
    · rw [htimedOut] at htrue
      cases htrue
  unfold Checking.receive
  dsimp only
  split
  · rename_i hstop
    have hfalse : (w.ok && result) = false := by
      simp only [Bool.and_eq_true, Bool.not_eq_true'] at hstop
      exact hstop.1
    refine h.advance rfl rfl (fun _ => rfl) ?_ ?_ (fun _ _ _ hwait => ?_) (fun _ => ?_)
      (fun _ _ hwait => ?_)
    · rw [hphase]
      simp only [Phase.weight]
      omega
    · simp only [hresults, List.length_cons]
      omega
    · cases hwait
    · exact hdecided (.inl hfalse)
    · cases hwait
  · split
    · rename_i hk
      refine h.advance rfl rfl id ?_ ?_ (fun _ _ _ hwait => ?_) (fun _ => ?_)
        (fun _ _ hwait => ?_)
      · rw [hphase]
        simp only [Phase.weight]
        omega
      · simp only [hresults, List.length_cons]
        omega
      · cases hwait
      · exact hdecided (.inr hk)
      · cases hwait
    · rename_i hk
      refine h.advance rfl rfl id ?_ ?_ (fun order' _ hcol _ => ?_) (fun hne => ?_)
        (fun _ _ hwait => ?_)
      · simp only [hphase, Phase.weight]
        omega
      · simp only [hresults, List.length_cons]
        omega
      · obtain ⟨hrest, hok'⟩ := (hcol hphase).next hresults
        exact ⟨(hcol hphase).kill, htimedOut, .inl (Nat.lt_of_not_le hk), hrest, hok'⟩
      · exact absurd hphase hne
      · have hwait : w.phase = _ := hwait
        rw [hphase] at hwait
        cases hwait

/-- The timeout. -/
theorem timeOut (h : w.Sound model sorter part timeout m) (hphase : w.phase = .select)
    (htimeout : timeout = true) :
    ∃ m' < m, w.timeOut.Sound model sorter part timeout m' := by
  obtain ⟨order, -, -, -, hcollected⟩ := h.sent
  have hok := (hcollected hphase).ok
  refine h.advance rfl rfl (fun _ => rfl) ?_ rfl (fun _ _ _ hwait => ?_)
    (fun _ => ⟨fun hfalse => ?_, fun _ hnot => ?_, fun _ => htimeout⟩) (fun _ _ hwait => ?_)
  · simp only [Checking.timeOut, hphase, Phase.weight]
    omega
  · cases hwait
  · have hfalse : w.ok = false := hfalse
    rw [hok, List.all_eq_false] at hfalse
    obtain ⟨i, -, hi⟩ := hfalse
    exact ⟨i, lin_eq_false.mp (Bool.eq_false_of_not_eq_true hi)⟩
  · cases hnot
  · cases hwait

/-- **One step** keeps everything and leaves fewer steps. -/
theorem step (htimed : ∀ i, Timed (part i)) (hequal : model.Congruent)
    (h : w.Sound model sorter part timeout m) {a : CheckAction k}
    (hstep : w.step model computeInfo timeout a = some w') :
    ∃ m' < m, w'.Sound model sorter part timeout m' := by
  cases a with
  | work i => exact h.work htimed hequal hstep
  | receive =>
    simp only [Checking.step] at hstep
    split at hstep
    · rename_i hphase hresults
      cases hstep
      exact h.receive hphase hresults
    · cases hstep
  | timeOut =>
    simp only [Checking.step] at hstep
    split at hstep
    · rename_i hphase
      split at hstep
      · rename_i htimeout
        cases hstep
        exact h.timeOut hphase htimeout
      · cases hstep
    · cases hstep
  | drain =>
    simp only [Checking.step] at hstep
    split at hstep
    · rename_i hphase hresults
      split at hstep
      · rename_i hleft
        cases hstep
        have hwait : w.phase ≠ .select := by
          rw [hphase]
          exact fun hselect => by cases hselect
        refine h.advance rfl rfl id ?_ ?_ (fun _ _ _ hselect => absurd hselect hwait)
          (fun _ => h.decided hwait) h.result
        · have hlt := hleft.2
          dsimp only
          omega
        · simp only [hresults, List.length_cons]
          omega
      · cases hstep
    · cases hstep
  | finish =>
    simp only [Checking.step] at hstep
    split at hstep
    · rename_i hphase
      split at hstep
      · cases hstep
      · cases hstep
        have hwait : w.phase ≠ .select := by
          rw [hphase]
          exact fun hselect => by cases hselect
        refine h.advance rfl rfl id ?_ rfl (fun _ _ _ hselect => ?_) (fun _ => h.decided hwait)
          (fun result partials hreturned => ?_)
        · simp only [hphase, Phase.weight]
          omega
        · cases hselect
        · cases hreturned
          refine ⟨rfl, fun ps hps i seq hseq => ?_⟩
          split at hps
          · cases hps
            rw [Checking.partials, List.mem_dedup, List.reduceOption_mem_iff] at hseq
            exact h.reported i seq hseq
          · cases hps
    · cases hstep

/-- Goroutines that can take no step have sent their results. -/
theorem all_sent (htimed : ∀ i, Timed (part i)) (hequal : model.Congruent)
    (h : w.Sound model sorter part timeout m)
    (hstuck : ∀ a, w.step model computeInfo timeout a = none) :
    w.count + w.results.length = k := by
  have hsent : ∀ i, w.workers i = .sent := by
    intro i
    have hwork : w.work model computeInfo i = none := hstuck (.work i)
    cases hworker : w.workers i with
    | running s =>
      obtain ⟨cost, hcost, -⟩ := h.workers
      have hcosti := hcost i
      rw [hworker] at hcosti
      obtain ⟨rounds, hsearching, -⟩ := hcosti
      simp only [Checking.work, hworker, Option.map_eq_none_iff] at hwork
      rcases hsearching.iterate (htimed i) hequal computeInfo w.kill with
        ⟨s', rounds', hs', -⟩ | ⟨ok, longest, hs', -⟩
      · rw [hwork] at hs'
        cases hs'
      · rw [hwork] at hs'
        cases hs'
    | returned ok longest =>
      simp only [Checking.work, hworker] at hwork
      cases hwork
    | sent => rfl
  obtain ⟨order, hnodup, hmem, hlength, -⟩ := h.sent
  have hall : order.toFinset = Finset.univ :=
    Finset.eq_univ_of_forall fun i => List.mem_toFinset.mpr ((hmem i).mpr (hsent i))
  rw [hlength, ← List.toFinset_card_of_nodup hnodup, hall, Finset.card_univ, Fintype.card_fin]

/-- **It returns**: nothing can go on only when the main goroutine is back, or when it waits for a
result of no partition, without a timeout. -/
theorem returned_of_stuck (htimed : ∀ i, Timed (part i)) (hequal : model.Congruent)
    (h : w.Sound model sorter part timeout m)
    (hstuck : ∀ a, w.step model computeInfo timeout a = none) :
    (∃ result partials, w.phase = .returned result partials) ∨ k = 0 ∧ timeout = false := by
  have hall := h.all_sent htimed hequal hstuck
  cases hphase : w.phase with
  | returned result partials => exact .inl ⟨result, partials, rfl⟩
  | select =>
    obtain ⟨order, -, -, -, hcollected⟩ := h.sent
    have hresults : w.results = [] := by
      have hreceive := hstuck .receive
      simp only [Checking.step, hphase] at hreceive
      split at hreceive
      · cases hreceive
      · rename_i hne
        cases hres : w.results with
        | nil => rfl
        | cons result results => exact absurd hres (hne result results rfl)
    have htimeout := hstuck .timeOut
    simp only [Checking.step, hphase, ite_eq_right_iff] at htimeout
    rw [hresults, List.length_nil, Nat.add_zero] at hall
    refine .inr ⟨(hcollected hphase).some_left.resolve_left (by omega), ?_⟩
    exact Bool.eq_false_of_not_eq_true fun htrue => by cases htimeout htrue
  | wait =>
    have hfinish := hstuck .finish
    simp only [Checking.step, hphase, ite_eq_left_iff] at hfinish
    by_cases hleft : computeInfo = true ∧ w.count < k
    · have hdrain := hstuck .drain
      simp only [Checking.step, hphase] at hdrain
      split at hdrain
      · rw [if_pos hleft] at hdrain
        cases hdrain
      · rename_i hne
        cases hres : w.results with
        | nil =>
          rw [hres, List.length_nil, Nat.add_zero] at hall
          exact absurd hall (Nat.ne_of_lt hleft.2)
        | cons result results => exact absurd hres (hne result results rfl)
    · cases hfinish hleft

/-- What the result says. -/
theorem returned (h : w.Sound model sorter part timeout m) {result : CheckResult}
    {partials : Option (Fin k → List (List Int))} (hphase : w.phase = .returned result partials) :
    (result = .ok → ∀ i, Linearizable model.toAutomaton (part i)) ∧
      (result = .illegal → ∃ i, ¬ Linearizable model.toAutomaton (part i)) ∧
      (result = .unknown → timeout = true) := by
  obtain ⟨rfl, -⟩ := h.result result partials hphase
  have hne : w.phase ≠ .select := by
    rw [hphase]
    exact fun hselect => by cases hselect
  obtain ⟨hillegal, hlegal, htimedOut⟩ := h.decided hne
  unfold Checking.result
  cases hok : w.ok with
  | false =>
    refine ⟨fun hresult => ?_, fun _ => hillegal hok, fun hresult => ?_⟩
    · cases hresult
    · cases hresult
  | true =>
    cases hout : w.timedOut with
    | false =>
      refine ⟨fun _ => hlegal hok hout, fun hresult => ?_, fun hresult => ?_⟩
      · cases hresult
      · cases hresult
    | true =>
      refine ⟨fun hresult => ?_, fun hresult => ?_, fun _ => htimedOut hout⟩
      · cases hresult
      · cases hresult

end Checking.Sound

/-- The beginning: every goroutine searches. -/
theorem sound_checkParallel (model : FullModel σ ι ο) (sorter : Sorter ι ο)
    {history : List (List (Entry ι ο))} {part : Fin history.length → List (Operation ι ο)}
    (hpart : ∀ i, history.get i = makeEntries sorter (part i)) (computeInfo timeout : Bool) :
    Checking.Sound model sorter part timeout (checkParallel model history computeInfo timeout).init
      (∑ i, (maxRounds (part i).length + 2) + history.length + 2) where
  workers := by
    refine ⟨fun i => maxRounds (part i).length + 2, fun i => ?_, Nat.le_refl _⟩
    refine ⟨maxRounds (part i).length, ?_, Nat.le_refl _⟩
    rw [hpart i]
    exact searching_start model (part i) sorter
  sent := by
    refine ⟨[], List.nodup_nil, fun i => ?_, rfl, fun _ => ⟨rfl, rfl, ?_, rfl, rfl⟩⟩
    · simp [checkParallel]
    · exact (Nat.eq_zero_or_pos history.length).symm
  decided hne := absurd rfl hne
  result _ _ hreturned := by cases hreturned
  reported _ _ hseq := absurd hseq List.not_mem_nil

end Invariant

/-! ### Every run -/

section Runs
variable {model : FullModel σ ι ο} {partitions : List (List (Operation ι ο))}

/-- The partition of a goroutine. -/
def partitionOf (sorter : Sorter ι ο) (partitions : List (List (Operation ι ο)))
    (i : Fin (partitions.map (makeEntries sorter)).length) : List (Operation ι ο) :=
  partitions.get (i.cast (List.length_map _))

theorem exists_partitionOf {sorter : Sorter ι ο} {part : List (Operation ι ο)}
    (hpart : part ∈ partitions) : ∃ i, partitionOf sorter partitions i = part := by
  obtain ⟨i, rfl⟩ := List.mem_iff_get.mp hpart
  exact ⟨i.cast (List.length_map _).symm, rfl⟩

theorem partitionOf_mem {sorter : Sorter ι ο}
    (i : Fin (partitions.map (makeEntries sorter)).length) :
    partitionOf sorter partitions i ∈ partitions :=
  List.get_mem _ _

/-- `checkParallel` for the partitions of a history. -/
abbrev checkPartitions (model : FullModel σ ι ο) (sorter : Sorter ι ο)
    (partitions : List (List (Operation ι ο))) (computeInfo timeout : Bool) :
    System (Checking σ ι ο (partitions.map (makeEntries sorter)).length)
      (CheckAction (partitions.map (makeEntries sorter)).length) :=
  checkParallel model (partitions.map (makeEntries sorter)) computeInfo timeout

section Sound
variable {sorter : Sorter ι ο} {computeInfo timeout : Bool}

theorem sound_init : ∃ m, (checkPartitions model sorter partitions computeInfo timeout).init.Sound
    model sorter (partitionOf sorter partitions) timeout m :=
  ⟨_, sound_checkParallel model sorter (fun i => by simp [partitionOf]) computeInfo timeout⟩

theorem sound_step (htimed : ∀ part ∈ partitions, Timed part) (hequal : model.Congruent)
    {w w' : Checking σ ι ο (partitions.map (makeEntries sorter)).length} {m : Nat}
    {a : CheckAction (partitions.map (makeEntries sorter)).length}
    (h : w.Sound model sorter (partitionOf sorter partitions) timeout m)
    (hstep : (checkPartitions model sorter partitions computeInfo timeout).step w a = some w') :
    ∃ m' < m, w'.Sound model sorter (partitionOf sorter partitions) timeout m' :=
  h.step (fun i => htimed _ (partitionOf_mem i)) hequal hstep

theorem sound_reach (htimed : ∀ part ∈ partitions, Timed part) (hequal : model.Congruent)
    {w : Checking σ ι ο (partitions.map (makeEntries sorter)).length}
    (h : (checkPartitions model sorter partitions computeInfo timeout).Reach System.anyStep w) :
    ∃ m, w.Sound model sorter (partitionOf sorter partitions) timeout m := by
  refine h.invariant (P := fun w => ∃ m, w.Sound model sorter (partitionOf sorter partitions)
    timeout m) sound_init ?_
  rintro w a w' - ⟨m, hm⟩ - hstep
  obtain ⟨m', -, hm'⟩ := sound_step htimed hequal hm hstep
  exact ⟨m', hm'⟩

theorem checkPartitions_result (htimed : ∀ part ∈ partitions, Timed part)
    (hequal : model.Congruent) {w : Checking σ ι ο (partitions.map (makeEntries sorter)).length}
    (h : (checkPartitions model sorter partitions computeInfo timeout).Reach System.anyStep w)
    {result : CheckResult}
    {partials : Option (Fin (partitions.map (makeEntries sorter)).length → List (List Int))}
    (hphase : w.phase = .returned result partials) :
    (result = .ok → ∀ part ∈ partitions, Linearizable model.toAutomaton part) ∧
    (result = .illegal → ∃ part ∈ partitions, ¬ Linearizable model.toAutomaton part) ∧
    (result = .unknown → timeout = true) ∧
    ∀ ps, partials = some ps → ∀ i, ∀ seq ∈ ps i,
      Partial model (partitionOf sorter partitions i) seq := by
  obtain ⟨m, hm⟩ := sound_reach htimed hequal h
  obtain ⟨hok, hillegal, hunknown⟩ := hm.returned hphase
  refine ⟨fun hresult part hpart => ?_, fun hresult => ?_, hunknown,
    (hm.result result partials hphase).2⟩
  · obtain ⟨i, rfl⟩ : ∃ i, partitionOf sorter partitions i = part := exists_partitionOf hpart
    exact hok hresult i
  · obtain ⟨i, hi⟩ := hillegal hresult
    exact ⟨_, partitionOf_mem i, hi⟩

variable (sorter computeInfo timeout) in
/-- No run goes on for ever. -/
theorem checkPartitions_bounded (htimed : ∀ part ∈ partitions, Timed part)
    (hequal : model.Congruent) :
    ∃ bound, ∀ acts w, (checkPartitions model sorter partitions computeInfo timeout).run
      (checkPartitions model sorter partitions computeInfo timeout).init acts = some w →
        acts.length ≤ bound := by
  obtain ⟨m, hm⟩ : ∃ m, (checkPartitions model sorter partitions computeInfo timeout).init.Sound
      model sorter (partitionOf sorter partitions) timeout m := sound_init
  refine ⟨m, fun acts w hrun => ?_⟩
  exact System.length_le_of_run (fun _ _ _ _ h => sound_step htimed hequal h) hm hrun

/-- A run that cannot go on has returned, unless there is nothing to wait for. -/
theorem checkPartitions_stuck (htimed : ∀ part ∈ partitions, Timed part)
    (hequal : model.Congruent) {w : Checking σ ι ο (partitions.map (makeEntries sorter)).length}
    (h : (checkPartitions model sorter partitions computeInfo timeout).Reach System.anyStep w)
    (hstuck : ∀ a, (checkPartitions model sorter partitions computeInfo timeout).step w a = none) :
    (∃ result partials, w.phase = .returned result partials) ∨
      partitions = [] ∧ timeout = false := by
  obtain ⟨m, hm⟩ := sound_reach htimed hequal h
  rcases hm.returned_of_stuck (fun i => htimed _ (partitionOf_mem i)) hequal hstuck with
    hreturned | ⟨hnone, htimeout⟩
  · exact .inl hreturned
  · exact .inr ⟨List.map_eq_nil_iff.mp (List.eq_nil_of_length_eq_zero hnone), htimeout⟩

end Sound

/-- **`checkParallel` decides linearizability under every schedule.** Whatever the goroutines and
the timeout do, it returns `Ok` only if every partition is linearizable, `Illegal` only if one is
not, and `Unknown` only if there is a timeout; the orders it reports begin orders of the
operations. No run goes on for ever, and none ends before `checkParallel` has returned, unless there
is no partition and no timeout: then it waits for ever. -/
theorem checkParallel_decides (htimed : ∀ part ∈ partitions, Timed part) (hequal : model.Congruent)
    (sorter : Sorter ι ο) (computeInfo timeout : Bool) :
    (∀ w, (checkPartitions model sorter partitions computeInfo timeout).Reach System.anyStep w →
      ∀ result partials, w.phase = .returned result partials →
        (result = .ok → ∀ part ∈ partitions, Linearizable model.toAutomaton part) ∧
        (result = .illegal → ∃ part ∈ partitions, ¬ Linearizable model.toAutomaton part) ∧
        (result = .unknown → timeout = true) ∧
        ∀ ps, partials = some ps → ∀ i, ∀ seq ∈ ps i,
          Partial model (partitionOf sorter partitions i) seq) ∧
    (∃ bound, ∀ acts w, (checkPartitions model sorter partitions computeInfo timeout).run
      (checkPartitions model sorter partitions computeInfo timeout).init acts = some w →
        acts.length ≤ bound) ∧
    ∀ w, (checkPartitions model sorter partitions computeInfo timeout).Reach System.anyStep w →
      (∀ a, (checkPartitions model sorter partitions computeInfo timeout).step w a = none) →
      (∃ result partials, w.phase = .returned result partials) ∨
        partitions = [] ∧ timeout = false :=
  ⟨fun _ hw _ _ hphase => checkPartitions_result htimed hequal hw hphase,
    checkPartitions_bounded sorter computeInfo timeout htimed hequal,
    fun _ hw hstuck => checkPartitions_stuck htimed hequal hw hstuck⟩

end Runs

def Phase.result : Phase k → Option CheckResult
  | .returned result _ => some result
  | _ => none

theorem Phase.returned_of_result {phase : Phase k} {result : CheckResult}
    (h : phase.result = some result) : ∃ partials, phase = .returned result partials := by
  cases phase with
  | select => cases h
  | wait => cases h
  | returned result' partials =>
    obtain rfl : result' = result := Option.some.inj h
    exact ⟨partials, rfl⟩

/-- The goroutine of the only partition takes both operations, returns and sends its result. -/
def oneWorkerRun (i : Fin k) : List (CheckAction k) :=
  [.work i, .work i, .work i, .work i, .receive, .finish]

theorem oneWorkerRun_returns :
    (((checkPartitions (fillDefault (kvModel .sorted)) insertionSorter [putGet] true false).run
      (checkPartitions (fillDefault (kvModel .sorted)) insertionSorter [putGet] true false).init
      (oneWorkerRun ⟨0, by decide⟩)).map fun w => decide (w.phase.result = some .ok)) =
        some true := by
  decide +kernel

theorem checkParallel_decides_putGet : ∃ w,
    (checkPartitions (fillDefault (kvModel .sorted)) insertionSorter [putGet] true false).Reach
      System.anyStep w ∧ w.phase.result = some .ok ∧
    Linearizable (fillDefault (kvModel .sorted)).toAutomaton putGet := by
  obtain ⟨w, hrun, hev⟩ := Option.map_eq_some_iff.mp oneWorkerRun_returns
  have hresult := of_decide_eq_true hev
  have hreach := System.reach_run .init (fun _ _ => trivial) _ hrun
  have htimed : ∀ part ∈ [putGet], Timed part := by
    intro part hpart
    rw [List.mem_singleton.mp hpart]
    exact putGet_timed
  obtain ⟨hdecides, -⟩ :=
    checkParallel_decides htimed (congruent_kvModel .sorted) insertionSorter true false
  obtain ⟨partials, hphase⟩ := Phase.returned_of_result hresult
  exact ⟨w, hreach, hresult,
    (hdecides w hreach .ok partials hphase).1 rfl putGet (List.mem_singleton_self _)⟩

end RaftLabs.Porcupine
