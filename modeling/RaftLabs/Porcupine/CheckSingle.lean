import RaftLabs.Porcupine.KvModel
import RaftLabs.Porcupine.Orders

/-! `checkSingle` decides linearizability.

It never stops the program, it returns after a number of rounds that depends only on the number of
operations, and unless it is told to stop it returns whether the history is linearizable. The
orders it reports for operations it could not place are beginnings of orders: the model can take
them, and they leave out no operation that has to be before one of theirs. -/
namespace RaftLabs.Porcupine
open Lib
variable {σ ι ο : Type} {model : FullModel σ ι ο} {history : List (Operation ι ο)}
variable {sorter : Sorter ι ο}

/-- The beginning of an order: whatever has to be before one of its operations is before it. -/
structure Begins (model : FullModel σ ι ο) (history : List (Operation ι ο))
    (ids : List (Fin history.length)) : Prop where
  nodup : ids.Nodup
  legal : model.Legal model.init (ids.map history.get)
  closed : ∀ before i after, ids = before ++ i :: after → ∀ j, Before history j i → j ∈ before

/-- The numbers of the operations of a beginning. -/
def Partial (model : FullModel σ ι ο) (history : List (Operation ι ο)) (seq : List Int) : Prop :=
  ∃ ids, Begins model history ids ∧ seq = ids.map fun i : Fin history.length => (i.val : Int)

/-- The state after some operations. -/
def FullModel.after (model : FullModel σ ι ο) (s : σ) (ops : List (Operation ι ο)) : σ :=
  ops.foldl (fun s op => (model.step s op.input op.output).2) s

theorem legal_concat {s : σ} {ops : List (Operation ι ο)} {op : Operation ι ο} :
    model.Legal s (ops ++ [op]) ↔
      model.Legal s ops ∧ (model.step (model.after s ops) op.input op.output).1 = true := by
  induction ops generalizing s with
  | nil => simp [Automaton.Legal, FullModel.after]
  | cons op' ops ih =>
    simp only [List.cons_append, Automaton.Legal, ih, and_assoc]
    rfl

/-- A path of the search is the beginning of an order. -/
theorem begins_of_path (htimed : Timed history) {ps : List Ptr} {k : Bitset × σ}
    (hpath : (historySearch model history sorter).Path
      (newBitset history.length, model.init) ps k) :
    ∃ ids, Begins model history ids ∧
      ps.map (heapOf (makeEntries sorter history)).id =
        ids.map (fun i : Fin history.length => (i.val : Int)) ∧
      k.2 = model.after model.init (ids.map history.get) ∧
      ∀ i : Fin history.length, k.1.mem i = true ↔ i ∈ ids := by
  induction hpath with
  | nil =>
    refine ⟨[], ⟨List.nodup_nil, trivial, ?_⟩, rfl, rfl, by simp⟩
    intro before i after h
    simp at h
  | @concat ps k k' p _ hp hmove ih =>
    obtain ⟨ids, hbegins, hnumbers, hstate, hmem⟩ := ih
    obtain ⟨b, s⟩ := k
    obtain ⟨i, hnode⟩ := exists_of_mem_candidates hp
    obtain ⟨hi, hfree⟩ := (mem_candidates_iff htimed hnode).mp hp
    obtain ⟨hok, hset, hstate'⟩ := (move_callNode htimed hnode).mp hmove
    have hnew : i ∉ ids := by
      rw [← hmem, hi]
      exact Bool.false_ne_true
    have hstate : s = model.after model.init (ids.map history.get) := hstate
    refine ⟨ids ++ [i], ⟨?_, ?_, ?_⟩, ?_, ?_, fun j => ?_⟩
    · exact List.nodup_append.mpr ⟨hbegins.nodup, List.nodup_singleton i, by
        rintro j hj i' hi' rfl
        rw [List.mem_singleton.mp hi'] at hj
        exact hnew hj⟩
    · rw [List.map_append, List.map_singleton, legal_concat, ← hstate]
      exact ⟨hbegins.legal, hok⟩
    · intro before i' after hsplit j hbefore
      rcases List.eq_nil_or_concat after with rfl | ⟨after, last, rfl⟩
      · obtain ⟨rfl, hlast⟩ := List.append_inj' hsplit rfl
        cases hlast
        by_contra hj
        refine hfree j ?_ hbefore
        have hj' := mt (hmem j).mp hj
        exact Bool.eq_false_of_not_eq_true hj'
      · rw [List.concat_eq_append, ← List.cons_append, ← List.append_assoc] at hsplit
        obtain ⟨hids, -⟩ := List.append_inj' hsplit rfl
        exact hbegins.closed before i' after hids j hbefore
    · rw [List.map_append, List.map_append, hnumbers, List.map_singleton, List.map_singleton,
        (heapOf_node hnode).2.1]
      rfl
    · rw [hstate', hstate, List.map_append, FullModel.after, FullModel.after, List.foldl_append]
      rfl
    · rw [Bitset.mem_set hset, Bool.or_eq_true, hmem, decide_eq_true_eq, Fin.val_inj,
        List.mem_append, List.mem_singleton]

theorem partial_of_reported (htimed : Timed history) {seq : List Int}
    (h : Reported model (heapOf (makeEntries sorter history))
      (nodesOf (makeEntries sorter history).length) (newBitset history.length, model.init) seq) :
    Partial model history seq := by
  obtain ⟨ps, k, hpath, rfl⟩ := h
  obtain ⟨ids, hbegins, hnumbers, -⟩ := begins_of_path htimed hpath
  exact ⟨ids, hbegins, hnumbers⟩

/-! ### One round -/

/-- A bound on the rounds for so many operations. -/
def maxRounds (n : Nat) : Nat := (2 * n + 1) * (2 * n + 2) ^ n

/-- The search for a history, with a bound on the rounds that are left. -/
def Searching (model : FullModel σ ι ο) (history : List (Operation ι ο)) (sorter : Sorter ι ο)
    (s : CheckState σ ι ο) (rounds : Nat) : Prop :=
  ∃ st, Sim model (heapOf (makeEntries sorter history)) (makeEntries sorter history).length
      (nodesOf (makeEntries sorter history).length) history.length
      (newBitset history.length, model.init) s st ∧
    (historySearch model history sorter).Explored
      (Finished (heapOf (makeEntries sorter history)) (nodesOf (makeEntries sorter history).length))
      (newBitset history.length, model.init) st ∧
    Search.cost (fun k => ((Finset.range history.length).filter fun i => k.1.mem i = true).card)
      history.length (2 * history.length) st ≤ rounds

/-- What `checkSingle` returns; a search that was told to stop returns false. -/
structure Answers (model : FullModel σ ι ο) (history : List (Operation ι ο)) (killed ok : Bool)
    (longest : Longest) : Prop where
  sound : ok = true → Linearizable model.toAutomaton history
  complete : ok = false → killed = true ∨ ¬ Linearizable model.toAutomaton history
  reported : ∀ seq, some seq ∈ longest → Partial model history seq

theorem candidates_length_le (k : Bitset × σ) :
    ((historySearch model history sorter).candidates k).length ≤ 2 * history.length := by
  calc ((historySearch model history sorter).candidates k).length
      ≤ (historyRemaining history sorter k.1).length := (List.takeWhile_sublist _).length_le
    _ ≤ (nodesOf (makeEntries sorter history).length).length := List.length_filter_le _ _
    _ = 2 * history.length := by simp [nodesOf, length_makeEntries]

theorem searching_start (model : FullModel σ ι ο) (history : List (Operation ι ο))
    (sorter : Sorter ι ο) :
    Searching model history sorter (startSingle model (makeEntries sorter history))
      (maxRounds history.length) :=
  ⟨_, startSingle_sim length_makeEntries model, Search.explored_start _,
    Search.cost_start_le candidates_length_le _⟩

/-- **One round** goes on with fewer rounds left, or returns the answer. -/
theorem Searching.iterate (htimed : Timed history) (hequal : model.Congruent)
    {s : CheckState σ ι ο} {rounds : Nat} (h : Searching model history sorter s rounds)
    (computePartial kill : Bool) :
    (∃ s' rounds', s.iterate model computePartial kill = some (.running s') ∧
      rounds' < rounds ∧ Searching model history sorter s' rounds') ∨
    ∃ ok longest, s.iterate model computePartial kill = some (.returned ok longest) ∧
      Answers model history kill ok longest := by
  obtain ⟨st, hsim, hexplored, hcost⟩ := h
  have hlaid := (paired_makeEntries htimed sorter).laid
  have hgraded := graded hlaid hequal
  have hreported : ∀ seq, some seq ∈ s.longest → Partial model history seq := fun seq hseq =>
    partial_of_reported htimed (hsim.reported seq hseq)
  rcases hsim.iterate hlaid computePartial kill with ⟨hfinished, hiterate⟩ |
    ⟨hopen, ⟨hstop, hiterate⟩ | ⟨s', st', hiterate, hstep, hsim'⟩⟩
  · refine .inr ⟨true, _, hiterate, fun _ => ?_, fun hok => absurd hok (by decide), fun seq hseq => ?_⟩
    · exact (solvable_iff_linearizable htimed).mp (hexplored.found hfinished)
    · obtain ⟨-, -, heq⟩ := List.mem_map.mp hseq
      cases heq
      exact partial_of_reported htimed hsim.reported_seq
  · refine .inr ⟨false, _, hiterate, fun hok => absurd hok (by decide), fun _ => ?_, hreported⟩
    rcases hstop with hkill | hexhausted
    · exact .inl hkill
    · refine .inr fun hlinearizable => ?_
      exact hexplored.exhausted hopen hexhausted ((solvable_iff_linearizable htimed).mpr hlinearizable)
  · have hless := Search.cost_step hgraded candidates_length_le hexplored hstep
    refine .inl ⟨s', _, hiterate, Nat.lt_of_lt_of_le hless hcost, st', hsim', ?_, Nat.le_refl _⟩
    exact hexplored.step hgraded hopen hstep

/-! ### The loop -/

theorem Answers.mono {killed killed' ok : Bool} {longest : Longest}
    (h : Answers model history killed ok longest) (himp : killed = true → killed' = true) :
    Answers model history killed' ok longest :=
  ⟨h.sound, fun hok => (h.complete hok).imp_left himp, h.reported⟩

/-- A search returns within its rounds. -/
theorem Searching.checkLoop (htimed : Timed history) (hequal : model.Congruent)
    (computePartial : Bool) {kills : List Bool} {s : CheckState σ ι ο} {rounds : Nat}
    (h : Searching model history sorter s rounds) (hkills : rounds < kills.length) :
    ∃ ok longest, checkLoop model computePartial kills (.running s) =
        some (.returned ok longest) ∧
      Answers model history (kills.any id) ok longest := by
  induction kills generalizing s rounds with
  | nil => exact absurd hkills (Nat.not_lt_zero _)
  | cons kill kills ih =>
    rcases h.iterate htimed hequal computePartial kill with
      ⟨s', rounds', hiterate, hless, h'⟩ | ⟨ok, longest, hiterate, hanswers⟩
    · have hlength : rounds' < kills.length := by
        rw [List.length_cons] at hkills
        omega
      obtain ⟨ok, longest, hloop, hanswers⟩ := ih h' hlength
      refine ⟨ok, longest, ?_, hanswers.mono fun hany => ?_⟩
      · rw [Porcupine.checkLoop, hiterate, Option.bind_some, hloop]
      · rw [List.any_cons, hany, Bool.or_true]
    · refine ⟨ok, longest, ?_, hanswers.mono fun hkill => ?_⟩
      · rw [Porcupine.checkLoop, hiterate, Option.bind_some]
        cases kills <;> rfl
      · rw [List.any_cons, hkill]
        rfl

/-- **`checkSingle` decides linearizability.** For every history whose operations return after they
are called and every order that sorting may leave equal entries in, it returns within `maxRounds`
rounds and never stops the program. It returns true only if the history is linearizable, false only
if it is not or if it was told to stop, and every order it reports begins an order of the
operations. -/
theorem checkSingle_decides (htimed : Timed history) (hequal : model.Congruent)
    (sorter : Sorter ι ο) (computePartial : Bool) (kills : List Bool)
    (hkills : maxRounds history.length < kills.length) :
    ∃ ok longest, checkSingle model (makeEntries sorter history) computePartial kills =
        some (.returned ok longest) ∧
      (ok = true → Linearizable model.toAutomaton history) ∧
      (ok = false → (∃ kill ∈ kills, kill = true) ∨ ¬ Linearizable model.toAutomaton history) ∧
      ∀ seq, some seq ∈ longest → Partial model history seq := by
  obtain ⟨ok, longest, hcheck, hanswers⟩ :=
    (searching_start model history sorter).checkLoop htimed hequal computePartial hkills
  refine ⟨ok, longest, hcheck, hanswers.sound, fun hok => ?_, hanswers.reported⟩
  refine (hanswers.complete hok).imp_left fun hany => ?_
  obtain ⟨kill, hmem, hkill⟩ := List.any_eq_true.mp hany
  exact ⟨kill, hmem, hkill⟩

theorem less_eq_false_iff {a b : Entry ι ο} : less b a = false ↔
    a.time < b.time ∨ a.time = b.time ∧ (a.isCall = true ∨ b.isCall = false) := by
  rw [less]
  split
  · rename_i hne
    rw [decide_eq_false_iff_not]
    omega
  · rename_i heq
    cases a.isCall <;> cases b.isCall <;> simp <;> omega

instance : Std.Total fun a b : Entry ι ο => less b a = false where
  total a b := by
    rw [less_eq_false_iff, less_eq_false_iff]
    cases a.isCall <;> cases b.isCall <;> simp <;> omega

instance : IsTrans (Entry ι ο) fun a b => less b a = false where
  trans a b c hab hbc := by
    rw [less_eq_false_iff] at *
    cases ha : a.isCall <;> cases hb : b.isCall <;> cases hc : c.isCall <;>
      simp [ha, hb, hc] at hab hbc ⊢ <;> omega

/-- A sorter that leaves equal entries in the order they were in. -/
def insertionSorter : Sorter ι ο where
  sort := List.insertionSort fun a b => less b a = false
  perm := List.perm_insertionSort _
  ordered := List.pairwise_insertionSort _

/-- A model that compares states with `==`. -/
theorem congruent_fillDefault [DecidableEq σ] {model : Model σ ι ο} (h : model.equal = none) :
    (fillDefault model).Congruent := by
  intro s t hequal input output hok
  have hst : s = t := by
    simpa [fillDefault, h, shallowEqual] using hequal
  subst hst
  exact ⟨hok, by simp [fillDefault, h, shallowEqual]⟩

theorem congruent_kvModel (order : RangeOrder String) : (fillDefault (kvModel order)).Congruent :=
  congruent_fillDefault rfl

/-- A put and a get at the same time, which returns the value that was put. -/
def putGet : List (Operation KvInput KvOutput) :=
  [⟨0, ⟨.ofNat 1, "x", "a"⟩, 1, ⟨""⟩, 3⟩, ⟨1, ⟨.ofNat 0, "x", ""⟩, 2, ⟨"a"⟩, 4⟩]

theorem putGet_timed : Timed putGet := by
  intro op hop
  simp only [putGet, List.mem_cons, List.not_mem_nil, or_false] at hop
  rcases hop with rfl | rfl <;> decide

def Progress.answer : Progress σ ι ο → Option Bool
  | .running _ => none
  | .returned ok _ => some ok

theorem putGet_ok :
    (checkSingle (fillDefault (kvModel .sorted)) (makeEntries insertionSorter putGet) false
      (List.replicate 181 false)).bind Progress.answer = some true := by
  decide +kernel

theorem checkSingle_decides_putGet : ∃ longest,
    checkSingle (fillDefault (kvModel .sorted)) (makeEntries insertionSorter putGet) false
        (List.replicate 181 false) = some (.returned true longest) ∧
      Linearizable (fillDefault (kvModel .sorted)).toAutomaton putGet := by
  obtain ⟨ok, longest, hcheck, hsound, -, -⟩ :=
    checkSingle_decides putGet_timed (congruent_kvModel .sorted) insertionSorter false
      (List.replicate 181 false) (by rw [List.length_replicate]; decide)
  have hok := putGet_ok
  rw [hcheck, Option.bind_some] at hok
  obtain rfl : ok = true := Option.some.inj hok
  exact ⟨longest, hcheck, hsound rfl⟩

end RaftLabs.Porcupine
