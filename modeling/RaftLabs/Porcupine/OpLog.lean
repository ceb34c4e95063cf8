import RaftLabs.Lib.Recording
import RaftLabs.Porcupine.Operations

/-! What the testers of the key/value services check.

The clients of a test put their calls into a log, with the times before and after; when they are
done the log is handed to the checker. If the service is linearizable the checker does not object to
it, whatever the clock, the clients and the goroutines of the checker do. -/
namespace RaftLabs.Porcupine
open Lib Lib.Recording
variable {W A C Id In Out : Type}

/-- How a tester writes down a call. -/
structure LogFormat (Id In Out : Type) where
  clientId : Id → Int
  input : In → KvInput
  output : In → Out → KvOutput

def LogFormat.operation (F : LogFormat Id In Out) (e : Recording.Entry Id In Out) :
    Operation KvInput KvOutput :=
  ⟨F.clientId e.id, F.input e.input, e.start, F.output e.input e.output, e.stop⟩

/-- The log that is checked. -/
def LogFormat.opLog (F : LogFormat Id In Out) (s : State W C Id In Out) :
    List (Operation KvInput KvOutput) :=
  s.log.map F.operation

/-- The store does what the object does. -/
structure LogFormat.Faithful (F : LogFormat Id In Out) (O : Object (String → String) In Out) :
    Prop where
  init : kvStore.init = O.init
  step : ∀ s input, kvStore.step s (F.input input) (F.output input (O.step s input).2) =
    (true, (O.step s input).1)

variable {F : LogFormat Id In Out} {O : Object (String → String) In Out}

theorem LogFormat.Faithful.legal (hF : F.Faithful O) {s : String → String}
    {entries : List (Recording.Entry Id In Out)} (h : O.Legal s (entries.map Recording.Entry.operation)) :
    kvStore.Legal s (entries.map F.operation) := by
  induction entries generalizing s with
  | nil => trivial
  | cons e rest ih =>
    obtain ⟨houtput, hrest⟩ := h
    have houtput : (O.step s e.input).2 = e.output := houtput
    have hstep : kvStore.step s (F.input e.input) (F.output e.input e.output) =
        (true, (O.step s e.input).1) := houtput ▸ hF.step s e.input
    rw [List.map_cons, Automaton.Legal]
    show (kvStore.step s (F.input e.input) (F.output e.input e.output)).1 = true ∧ _
    refine ⟨by rw [hstep], ?_⟩
    show kvStore.Legal (kvStore.step s (F.input e.input) (F.output e.input e.output)).2 _
    rw [hstep]
    exact ih hrest

section Runs
variable {S : Service W A C Id In Out} {ok : W → A → Prop} {s : State W C Id In Out}

theorem timed_opLog (h : Recorded S s) : Timed (F.opLog s) := by
  intro op hop
  obtain ⟨e, he, rfl⟩ := List.mem_map.mp hop
  exact (h.spans e he).1

/-- When the service is linearizable and all calls are in the log, the log is linearizable. -/
theorem linearizable_opLog (hF : F.Faithful O) (h : Recorded S s) (hlogged : AllLogged S s)
    (hwf : WellFormed (S.history s.world)) (hlin : Lib.Linearizable O (S.history s.world)) :
    Linearizable kvStore (F.opLog s) := by
  obtain ⟨order, horder⟩ := hlin
  obtain ⟨entries, hperm, rfl, hordered⟩ := h.explained hlogged hwf horder
  refine ⟨entries.map F.operation, hperm.map _, ?_, List.pairwise_map.mpr hordered⟩
  rw [hF.init]
  exact hF.legal horder.legal

/-- **The log of a linearizable service passes the check.** -/
theorem opLog_accepted [DecidableEq C] (hF : F.Faithful O) (hS : Observed S ok)
    (hlin : ∀ w, S.toSystem.Reach ok w → Lib.Linearizable O (S.history w))
    (hs : (recorder S).Reach (allowed ok) s) (hlogged : AllLogged S s)
    {order : RangeOrder String} {sorter : Sorter KvInput KvOutput} {verbose timeout : Bool}
    {w : Checking String KvInput KvOutput
      ((kvPartition order (F.opLog s)).map (makeEntries sorter)).length}
    (hw : (checkOperations (kvModel order) sorter (F.opLog s) verbose timeout).Reach
      System.anyStep w) :
    (∀ result partials, w.phase = .returned result partials →
      result ≠ .illegal ∧ (timeout = false → result = .ok)) ∧
    ((∀ a, (checkOperations (kvModel order) sorter (F.opLog s) verbose timeout).step w a = none) →
      (∃ result partials, w.phase = .returned result partials) ∨ s.log = [] ∧ timeout = false) := by
  obtain ⟨hreach, h⟩ := recorded_reach hS hs
  have hlog := linearizable_opLog hF h hlogged (hS.wellFormed hreach) (hlin _ hreach)
  refine ⟨fun result partials hphase => ?_, fun hstuck => ?_⟩
  · obtain ⟨-, hillegal, hunknown⟩ := checkOperations_result (timed_opLog h) hw hphase
    refine ⟨fun hresult => hillegal hresult hlog, fun htimeout => ?_⟩
    cases result with
    | ok => rfl
    | illegal => exact absurd hlog (hillegal rfl)
    | unknown => exact absurd (htimeout.symm.trans (hunknown rfl)) Bool.false_ne_true
  · exact (checkOperations_stuck (timed_opLog h) hw hstuck).imp_right
      fun ⟨hnil, htimeout⟩ => ⟨List.map_eq_nil_iff.mp hnil, htimeout⟩

end Runs
end RaftLabs.Porcupine
