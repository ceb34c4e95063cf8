import RaftLabs.KVRaft.EndToEnd
import RaftLabs.Porcupine.OpLog

/-! The tester of the key/value service (`GenericTest`).

Its clients call the clerks through `Get`, `Put` and `Append` of `test_test.go`, which note every
call in an `OpLog`. The service runs over its own Raft. -/
namespace RaftLabs.KVRaft
namespace Stack
open Lib Lib.Recording Porcupine
variable {n : Nat} [NeZero n] {codec : Codec} {w w' : World n}

/-- The service, called through clerks. -/
def clerkService (codec : Codec) (n : Nat) [NeZero n] :
    Recording.Service (Raft.InMemory (World n) n Op) (Raft.Scheduled (Action n)) Nat CallId Request
      String where
  toSystem := (carrier codec n).inMemory
  history x := x.state.history
  client := Prod.fst

/-- How `Get`, `Put` and `Append` write down a call; `cli` is the client that uses the clerk. -/
def logFormat (cli : Nat → Int) : LogFormat CallId Request String where
  clientId id := cli id.1
  input
    | .get key => ⟨.ofNat 0, key, ""⟩
    | .putAppend .put key value => ⟨.ofNat 1, key, value⟩
    | .putAppend .append key value => ⟨.ofNat 2, key, value⟩
  output
    | .get _, value => ⟨value⟩
    | .putAppend _ _ _, _ => ⟨""⟩

theorem logFormat_faithful (cli : Nat → Int) : (logFormat cli).Faithful mapObject where
  init := rfl
  step s request := by
    cases request with
    | get key => simp [logFormat, kvStore, Automaton.keyed, kvStep, mapObject]
    | putAppend op key value =>
      cases op <;> simp [logFormat, kvStore, Automaton.keyed, kvStep, mapObject]

/-! ### What the callers of the clerks see -/

omit [NeZero n] in
theorem history_enter (w : World n) (k : Nat) (call : Call n) :
    (w.enter k call).history = w.history := by
  simp only [World.enter]
  split
  · rfl
  · split <;> rfl

omit [NeZero n] in
theorem history_wake {k startTerm : Nat} {call : Call n} (h : w.wake k call startTerm = some w') :
    w'.history = w.history := by
  obtain ⟨reply, -, rfl⟩ := Option.map_eq_some_iff.mp h
  rfl

/-- Callers see one event at a time. -/
theorem history_step {act : Action n} (hstep : step codec w act = some w') :
    w'.history = w.history ∨ ∃ e, w'.history = w.history ++ [e] := by
  cases act with
  | invoke c request =>
    simp only [step, Option.ite_none_right_eq_some, Option.some.injEq] at hstep
    obtain ⟨-, rfl⟩ := hstep
    exact .inr ⟨_, rfl⟩
  | attempt c =>
    simp only [step] at hstep
    split at hstep
    · cases hstep
      exact .inl rfl
    · cases hstep
  | enter k =>
    simp only [step] at hstep
    split at hstep
    · cases hstep
    · split at hstep
      · simp only [Option.ite_none_right_eq_some, Option.some.injEq] at hstep
        obtain ⟨-, rfl⟩ := hstep
        exact .inl (history_enter w k _)
      · cases hstep
  | wake k =>
    simp only [step] at hstep
    split at hstep
    · cases hstep
    · split at hstep
      · rw [Option.ite_none_right_eq_some] at hstep
        exact .inl (history_wake hstep.2)
      · cases hstep
  | fail c =>
    simp only [step, Option.ite_none_left_eq_some, Option.some.injEq] at hstep
    obtain ⟨-, rfl⟩ := hstep
    exact .inl rfl
  | finish c =>
    simp only [step] at hstep
    split at hstep
    · cases hstep
    · split at hstep
      · simp only [Option.ite_none_right_eq_some, Option.some.injEq] at hstep
        obtain ⟨-, rfl⟩ := hstep
        exact .inr ⟨_, rfl⟩
      · cases hstep
  | host act =>
    cases act with
    | submit s op => cases hstep
    | restart s =>
      cases hstep
      exact .inl rfl
    | _ =>
      obtain ⟨host, -, rfl⟩ := Option.map_eq_some_iff.mp hstep
      exact .inl rfl

/-- Encoding requests is nothing that they see. -/
theorem history_inMemory {x x' : Raft.InMemory (World n) n Op} {a : Raft.Scheduled (Action n)}
    (hstep : (carrier codec n).inMemory.step x a = some x') :
    x'.state.history = x.state.history ∨ ∃ e, x'.state.history = x.state.history ++ [e] := by
  obtain ⟨w, hw, rfl⟩ := (carrier codec n).inMemory_step hstep
  obtain ⟨v, hv, rfl | ⟨i, -, rfl⟩⟩ := (carrier codec n).stepIn_cases hw
  · have hcases := history_step hv
    exact hcases
  · exact .inl rfl

theorem observed :
    Observed (clerkService codec n) ((carrier codec n).timely recovers) where
  init := rfl
  step hstep := history_inMemory hstep
  wellFormed hx := by
    obtain ⟨v, hv, hsim⟩ := simulates_reach (reach_of_timely hx)
    have h := (sound_reach hv).records
    have hhistory : v.trace.map (·.1) = (clerkService codec n).history _ := hsim.history
    rw [← hhistory]
    refine wellFormed_of_trace (fun id request request' t t' ht ht' => ?_) h.once ?_
    · exact (h.single id request request' t t' ht ht').1
    · intro id value t ht
      obtain ⟨request, t₀, ht₀, -⟩ := h.responded id value t ht
      exact ⟨request, t₀, ht₀⟩

/-- **The service passes its test.** Clients call the clerks and note their calls, with any elections,
lost messages, snapshots and restarts that lose nothing that matters, and requests encoded in time.
When all calls are in the log the checker does not find it illegal, however its goroutines are
scheduled; without a timeout it answers `Ok`, and it does return unless the log is empty and there
is no timeout. -/
theorem opLog_passes (cli : Nat → Int)
    {s : Recording.State (Raft.InMemory (World n) n Op) Nat CallId Request String}
    (hs : (recorder (clerkService codec n)).Reach
      (allowed ((carrier codec n).timely recovers)) s)
    (hlogged : AllLogged (clerkService codec n) s) (order : RangeOrder String)
    (sorter : Sorter KvInput KvOutput) (verbose timeout : Bool) :
    ∀ w, (checkOperations (kvModel order) sorter ((logFormat cli).opLog s) verbose timeout).Reach
        System.anyStep w →
      (∀ result partials, w.phase = .returned result partials →
        result ≠ .illegal ∧ (timeout = false → result = .ok)) ∧
      ((∀ a, (checkOperations (kvModel order) sorter ((logFormat cli).opLog s) verbose
          timeout).step w a = none) →
        (∃ result partials, w.phase = .returned result partials) ∨
          s.log = [] ∧ timeout = false) := by
  intro w hw
  refine opLog_accepted (logFormat_faithful cli) observed (fun x hx => ?_) hs hlogged hw
  obtain ⟨v, hv, hsim⟩ := simulates_reach (reach_of_timely hx)
  obtain ⟨S, hlin, -⟩ := exists_order (sound_reach hv)
  show Lib.Linearizable mapObject x.state.history
  exact ⟨S, hsim.history ▸ hlin⟩

/-- Both clients of `appendThenGet` read the clock at first; the second one is the first to put its
call into the log. -/
def loggedRun (i j : Fin n) : List (Recording.Action (Raft.Scheduled (Action n)) Nat) :=
  [.start 0, .elapse 1, .start 1] ++ (Raft.scheduled [] (appendThenGet i j)).map .act ++
    [.elapse 1, .stop 0, .stop 1, .append 1, .append 0]

theorem loggedRun_runs :
    (((recorder (clerkService someCodec 3)).runWhere
        (allowed ((carrier someCodec 3).timely recovers))
        (recorder (clerkService someCodec 3)).init (loggedRun 0 1)).map fun s =>
      decide (s.world.state.history.map (·.id) = [(0, 1), (0, 1), (1, 1), (1, 1)] ∧
        s.log.map (·.id) = [(1, 1), (0, 1)])) = some true := by
  decide +kernel

theorem opLog_passes_loggedRun : ∃ s,
    (recorder (clerkService someCodec 3)).Reach
      (allowed ((carrier someCodec 3).timely recovers)) s ∧
    AllLogged (clerkService someCodec 3) s ∧ s.log.length = 2 ∧
    ∀ w, (checkOperations (kvModel .sorted) insertionSorter
        ((logFormat fun _ => 0).opLog s) true false).Reach System.anyStep w →
      ∀ result partials, w.phase = .returned result partials → result = .ok := by
  obtain ⟨s, hrun, hev⟩ := Option.map_eq_some_iff.mp loggedRun_runs
  obtain ⟨hhistory, hlog⟩ := of_decide_eq_true hev
  have hs := System.reach_runWhere .init _ hrun
  have hlogged := allLogged_of_ids (S := clerkService someCodec 3) (by
    show s.world.state.history.map (·.id) ⊆ s.log.map (·.id)
    rw [hhistory, hlog]
    decide)
  refine ⟨s, hs, hlogged, ?_, fun w hw result partials hphase => ?_⟩
  · rw [← List.length_map (·.id), hlog]
    rfl
  · exact ((opLog_passes (fun _ => 0) hs hlogged .sorted insertionSorter true false w hw).1
      result partials hphase).2 rfl

end Stack
end RaftLabs.KVRaft
