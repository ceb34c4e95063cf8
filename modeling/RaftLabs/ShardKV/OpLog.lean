import RaftLabs.Porcupine.OpLog
import RaftLabs.ShardKV.Linear

/-! The test of the sharded service that checks what its clients saw (`TestUnreliable3`).

The clients note their calls while groups join and leave. -/
namespace RaftLabs.ShardKV
open Lib Lib.Recording Porcupine
variable {H : ConfigHistory} {w w' : World}

/-- The service, called through clerks. -/
def clerkService (H : ConfigHistory) : Recording.Service World Action Nat CallId Request String where
  toSystem := service H
  history := World.history
  client := Prod.fst

/-- How the test writes down a call; `i` is the client that uses the clerk. -/
def logFormat (i : Nat → Int) : LogFormat CallId Request String where
  clientId id := i id.1
  input
    | .get key => ⟨.ofNat 0, key, ""⟩
    | .putAppend .put key value => ⟨.ofNat 1, key, value⟩
    | .putAppend .append key value => ⟨.ofNat 2, key, value⟩
  output
    | .get _, value => ⟨value⟩
    | .putAppend _ _ _, _ => ⟨""⟩

theorem logFormat_faithful (i : Nat → Int) : (logFormat i).Faithful mapObject where
  init := rfl
  step s request := by
    cases request with
    | get key => simp [logFormat, kvStore, Automaton.keyed, kvStep, mapObject]
    | putAppend op key value =>
      cases op <;> simp [logFormat, kvStore, Automaton.keyed, kvStep, mapObject]

theorem history_observe (w : World) (e : Event) :
    (w.observe e).history = w.history ++ [e.history] := by
  rw [World.history, World.observe, List.map_append]
  rfl

theorem history_enter (w : World) (k : Nat) (call : Call) (isLeader started : Bool) :
    (w.enter k call isLeader started).history = w.history := by
  simp only [World.enter]
  split
  · rfl
  · split <;> rfl

theorem history_pull (w : World) (g : Int) (r : Nat) : (w.pull g r).history = w.history := by
  unfold World.pull
  split <;> rfl

/-- Callers see one event at a time. -/
theorem history_step (hstep : Stepped H w w') :
    w'.history = w.history ∨ ∃ e, w'.history = w.history ++ [e] := by
  cases hstep with
  | invoke => exact .inr ⟨_, history_observe _ _⟩
  | finish => exact .inr ⟨_, history_observe _ _⟩
  | enter => exact .inl (history_enter _ _ _ _ _)
  | pull => exact .inl (history_pull _ _ _)
  | _ => exact .inl rfl

theorem observed (hfull : H.Full) : Observed (clerkService H) System.anyStep where
  init := rfl
  step hstep := history_step (step_cases hstep)
  wellFormed {w} hw := by
    have h := (served_of_reach hfull hw).sessions
    have hhistory : w.stamped.map (·.1) = w.history := by
      rw [World.stamped, World.history, List.map_map]
      rfl
    show WellFormed w.history
    rw [← hhistory]
    refine wellFormed_of_trace (fun id request request' t t' ht ht' => ?_) h.once ?_
    · exact (h.single id request request' t t' ht ht').1
    · intro id value t ht
      obtain ⟨request, t₀, ht₀, -⟩ := h.responded id value t ht
      exact ⟨request, t₀, ht₀⟩

/-- **The sharded service passes its test.** Clients call the clerks and note their calls while
shards move between groups. When all calls are in the log the checker does not find it illegal,
however its goroutines are scheduled; without a timeout it answers `Ok`, and it does return unless
the log is empty and there is no timeout. -/
theorem opLog_passes_migration (hfull : H.Full) (i : Nat → Int)
    {s : Recording.State World Nat CallId Request String}
    (hs : (recorder (clerkService H)).Reach (allowed System.anyStep) s)
    (hlogged : AllLogged (clerkService H) s) (order : RangeOrder String)
    (sorter : Sorter KvInput KvOutput) (verbose timeout : Bool) :
    ∀ w, (checkOperations (kvModel order) sorter ((logFormat i).opLog s) verbose timeout).Reach
        System.anyStep w →
      (∀ result partials, w.phase = .returned result partials →
        result ≠ .illegal ∧ (timeout = false → result = .ok)) ∧
      ((∀ a, (checkOperations (kvModel order) sorter ((logFormat i).opLog s) verbose
          timeout).step w a = none) →
        (∃ result partials, w.phase = .returned result partials) ∨
          s.log = [] ∧ timeout = false) := by
  intro w hw
  refine opLog_accepted (logFormat_faithful i) (observed hfull) (fun w hw => ?_) hs hlogged hw
  obtain ⟨S, hlin, -⟩ := (served_of_reach hfull hw).linearization (sound_of_reach hw) hfull
  exact ⟨S, hlin⟩

/-- Both clients of `retryMoved` read the clock at first and put their calls into the log at the
end. -/
def loggedMoved : List (Recording.Action Action Nat) :=
  [.start 7, .elapse 1, .start 8] ++ retryMoved.map .act ++
    [.elapse 1, .stop 7, .stop 8, .append 8, .append 7]

theorem loggedMoved_runs :
    (((recorder (clerkService oneThenTwo)).run (recorder (clerkService oneThenTwo)).init
      loggedMoved).map fun s =>
        decide (s.world.history.map (·.id) = [(7, 1), (7, 1), (8, 2), (8, 2)] ∧
          s.log.map (·.id) = [(8, 2), (7, 1)])) = some true := by
  decide +kernel

theorem opLog_passes_migration_loggedMoved : ∃ s,
    (recorder (clerkService oneThenTwo)).Reach (allowed System.anyStep) s ∧
    AllLogged (clerkService oneThenTwo) s ∧ s.log.length = 2 ∧
    ∀ w, (checkOperations (kvModel .sorted) insertionSorter
        ((logFormat fun _ => 0).opLog s) true false).Reach System.anyStep w →
      ∀ result partials, w.phase = .returned result partials → result = .ok := by
  obtain ⟨s, hrun, hev⟩ := Option.map_eq_some_iff.mp loggedMoved_runs
  obtain ⟨hhistory, hlog⟩ := of_decide_eq_true hev
  have hs : (recorder (clerkService oneThenTwo)).Reach (allowed System.anyStep) s :=
    System.reach_run .init allowed_anyStep _ hrun
  have hlogged := allLogged_of_ids (S := clerkService oneThenTwo) (by
    show s.world.history.map (·.id) ⊆ s.log.map (·.id)
    rw [hhistory, hlog]
    decide)
  refine ⟨s, hs, hlogged, ?_, fun w hw result partials hphase => ?_⟩
  · rw [← List.length_map (·.id), hlog]
    rfl
  · exact ((opLog_passes_migration oneThenTwo_full (fun _ => 0) hs hlogged .sorted insertionSorter
      true false w hw).1 result partials hphase).2 rfl

end RaftLabs.ShardKV
