import Mathlib.Data.Countable.Basic
import Mathlib.Logic.Equiv.List
import RaftLabs.KVRaft.Stack

/-! The service on top of Raft behaves as the service over an agreed log, and is linearizable.

The agreed log, the proposals and the snapshots of the abstract service are those that the Raft
cluster represents. Every step of the stack is matched by steps of the abstract service: Raft's
goroutines by none, a message that some server is the first to receive by `append`, a message that
a server looks at by `apply` or `install`, a restart by `install` and `restart`. Clerks and
handlers move together. -/
namespace RaftLabs.KVRaft
open Lib
variable {n : Nat}

/-- The replicated part of the abstract service. -/
def World.agreed (v : World n) : AgreedLog (Fin n) Op KVServer where
  log := v.log
  proposals := v.proposals
  states := v.servers
  persisted := v.persisted
  snapshots := v.snapshots

/-- The parts of the abstract service that Raft does not touch. -/
structure SameClients (v v' : World n) : Prop where
  clerks : v'.clerks = v.clerks
  calls : v'.calls = v.calls
  history : v'.history = v.history

theorem history_observe (v : World n) (e : HistoryEvent CallId Request String) :
    (v.observe e).history = v.history ++ [e] := by
  simp [World.history, World.observe]

/-! ### Steps of the agreed log as steps of the service -/

section Lift
variable [NeZero n] {codec : Codec} {v : World n} {a : AgreedLog (Fin n) Op KVServer}

theorem lift_append {j : Nat}
    (h : v.agreed.step (kvService codec).toMachine (.append j) = some a) :
    ∃ v', step v (.append j) = some v' ∧ v'.agreed = a ∧ SameClients v v' := by
  obtain ⟨op, hop, rfl⟩ := Option.map_eq_some_iff.mp h
  refine ⟨{ v with log := v.log ++ [op], proposals := v.proposals.eraseIdx j }, ?_, rfl, rfl, rfl,
    rfl⟩
  simp only [step, show v.proposals[j]? = some op from hop, Option.map_some]

theorem lift_apply {s : Fin n} {o : Unit}
    (h : v.agreed.step (kvService codec).toMachine (.apply s o) = some a) :
    ∃ v', step v (.apply s) = some v' ∧ v'.agreed = a ∧ SameClients v v' := by
  obtain ⟨op, hop, happly⟩ := Option.bind_eq_some_iff.mp h
  obtain ⟨kv, hkv, rfl⟩ := Option.map_eq_some_iff.mp happly
  cases hkv
  refine ⟨v.setServer s ((v.servers s).applyCommand op ((v.servers s).commitedId + 1)), ?_, rfl,
    rfl, rfl, rfl⟩
  simp only [step, show v.log[(v.servers s).commitedId]? = some op from hop, Option.map_some]

theorem lift_install {s : Fin n} {j : Nat}
    (h : v.agreed.step (kvService codec).toMachine (.install s j) = some a) :
    ∃ v', step v (.install s j) = some v' ∧ v'.agreed = a ∧ SameClients v v' := by
  obtain ⟨data, hdata, rfl⟩ := Option.map_eq_some_iff.mp h
  refine ⟨v.install s data, ?_, rfl, rfl, rfl, rfl⟩
  simp only [step, show v.snapshots[j]? = some data from hdata, Option.map_some]

end Lift

namespace Stack
variable {codec : Codec} {w w' : World n} {v : KVRaft.World n}

/-- An attempt as the abstract service sees it. -/
def Progress.erase : Progress → KVRaft.Progress
  | .sent => .sent
  | .waiting _ => .waiting
  | .replied reply => .replied reply
  | .gone => .gone

def Call.erase (call : Call n) : KVRaft.Call n :=
  { server := call.server, args := call.args, progress := call.progress.erase }

/-- The stack is an implementation of the abstract service. -/
structure Simulates (codec : Codec) (w : World n) (v : KVRaft.World n) : Prop where
  agreed : ∃ chosen rest, Raft.Represents (kvService codec) w.host v.agreed chosen rest
  clerks : v.clerks = w.clerks
  calls : v.calls = w.calls.map Call.erase
  history : v.history = w.history

/-- The abstract service can take steps that lead to an abstraction of `w`. -/
def Follows (codec : Codec) (v : KVRaft.World n) [NeZero n] (w : World n) : Prop :=
  ∃ acts v', (KVRaft.service n).run v acts = some v' ∧ Simulates codec w v'

theorem Follows.one [NeZero n] {act : KVRaft.Action n} {v' : KVRaft.World n}
    (hstep : KVRaft.step v act = some v') (h : Simulates codec w v') : Follows codec v w :=
  ⟨[act], v', by simp [System.run, KVRaft.service, hstep], h⟩

theorem Follows.stay [NeZero n] (h : Simulates codec w v) : Follows codec v w := ⟨[], v, rfl, h⟩

theorem Simulates.servers (h : Simulates codec w v) (s : Fin n) : v.servers s = w.kv s := by
  obtain ⟨_, _, hr⟩ := h.agreed
  exact hr.states s

theorem Simulates.getElem? (h : Simulates codec w v) (k : Nat) :
    v.calls[k]? = (w.calls[k]?).map Call.erase := by
  rw [h.calls, List.getElem?_map]

/-- Raft's part moves and the clients do not. -/
theorem Simulates.setHost (h : Simulates codec w v) {v' : KVRaft.World n}
    {host : Raft.Host n Op KVServer} {chosen rest : List (Raft.RaftLogEntry Op)}
    (hr : Raft.Represents (kvService codec) host v'.agreed chosen rest) (hsame : SameClients v v') :
    Simulates codec { w with host := host } v' where
  agreed := ⟨chosen, rest, hr⟩
  clerks := hsame.clerks.trans h.clerks
  calls := hsame.calls.trans h.calls
  history := hsame.history.trans h.history

/-- A call moves on in both. -/
theorem Simulates.advance (h : Simulates codec w v) (k : Nat) (call : Call n)
    (progress : Progress) :
    Simulates codec (w.advance k call progress) (v.advance k call.erase progress.erase) where
  agreed := h.agreed
  clerks := h.clerks
  calls := by
    show v.calls.set k _ = (w.calls.set k _).map Call.erase
    rw [h.calls, List.map_set]
    rfl
  history := h.history

/-! ### Clerks -/

theorem Simulates.invoke (h : Simulates codec w v) (c : Nat) (request : Request) :
    Simulates codec (w.invoke c request) (v.invoke c request) where
  agreed := h.agreed
  clerks := by
    show Function.update v.clerks c _ = Function.update w.clerks c _
    rw [h.clerks]
  calls := h.calls
  history := by
    rw [KVRaft.World.invoke, history_observe, h.clerks]
    exact congrArg (· ++ [_]) h.history

theorem Simulates.attempt (h : Simulates codec w v) (c : Nat) (request : Request) :
    Simulates codec (w.attempt c request) (v.attempt c request) where
  agreed := h.agreed
  clerks := by
    show Function.update v.clerks c _ = Function.update w.clerks c _
    rw [h.clerks, h.calls, List.length_map]
  calls := by
    show v.calls ++ [_] = (w.calls ++ [_]).map Call.erase
    rw [List.map_append, ← h.calls, h.clerks]
    rfl
  history := h.history

theorem Simulates.retry [NeZero n] (h : Simulates codec w v) (c : Nat) :
    Simulates codec (w.setClerk c (w.clerks c).retry) (v.setClerk c (v.clerks c).retry) where
  agreed := h.agreed
  clerks := by
    show Function.update v.clerks c _ = Function.update w.clerks c _
    rw [h.clerks]
  calls := h.calls
  history := h.history

theorem Simulates.finish (h : Simulates codec w v) (c : Nat) (reply : Reply) :
    Simulates codec (w.finish c reply) (v.finish c reply) where
  agreed := h.agreed
  clerks := by
    show Function.update v.clerks c _ = Function.update w.clerks c _
    rw [h.clerks]
  calls := h.calls
  history := by
    rw [KVRaft.World.finish, history_observe, h.clerks]
    exact congrArg (· ++ [_]) h.history

/-- A restart ends the same handlers in both. -/
theorem erase_stop (s : Fin n) (call : Call n) :
    (match call.progress with
      | .waiting _ => if call.server = s then { call with progress := .gone } else call
      | _ => call).erase =
    if call.erase.server = s ∧ call.erase.progress = .waiting then
      { call.erase with progress := .gone } else call.erase := by
  obtain ⟨server, args, progress⟩ := call
  cases progress with
  | sent => simp [Call.erase, Progress.erase]
  | replied reply => simp [Call.erase, Progress.erase]
  | gone => simp [Call.erase, Progress.erase]
  | waiting term =>
    by_cases hs : server = s <;> simp [Call.erase, Progress.erase, hs]

/-! ### Handlers -/

section Steps
variable [NeZero n]

theorem Simulates.enter (h : Simulates codec w v) {k : Nat} {call : Call n}
    (hk : w.calls[k]? = some call) (hsent : call.progress = .sent)
    (hup : (w.host.raft.nodes call.server).up = true) : Follows codec v (w.enter k call) := by
  obtain ⟨chosen, rest, hr⟩ := h.agreed
  have hcall : v.calls[k]? = some call.erase := by rw [h.getElem?, hk, Option.map_some]
  have hprogress : call.erase.progress = .sent := by simp [Call.erase, hsent, Progress.erase]
  have hstep : ∀ isLeader started, KVRaft.step v (.enter k isLeader started) =
      some (v.enter k call.erase isLeader started) := by
    intro isLeader started
    simp only [KVRaft.step, hcall, hprogress, if_true]
  have hserver : v.servers call.erase.server = w.kv call.server := h.servers call.server
  unfold World.enter
  dsimp only
  cases hserve : (w.kv call.server).serve
      (decide ((w.rf call.server).state = .leader)) call.args with
  | reply reply =>
    refine .one (hstep (decide ((w.rf call.server).state = .leader)) true) ?_
    have henter : v.enter k call.erase (decide ((w.rf call.server).state = .leader)) true =
        v.advance k call.erase (.replied reply) := by
      unfold KVRaft.World.enter
      rw [hserver, show call.erase.args = call.args from rfl, hserve]
    rw [henter]
    exact h.advance k call (.replied reply)
  | start op =>
    dsimp only
    have henter : ∀ started, v.enter k call.erase (decide ((w.rf call.server).state = .leader))
        started = if started then { v with proposals := v.proposals ++ [op] }.advance k call.erase
          .waiting else v.advance k call.erase (.replied {}) := by
      intro started
      unfold KVRaft.World.enter
      rw [hserver, show call.erase.args = call.args from rfl, hserve]
    rcases hr.submit hup op with ⟨hsome, rest', hr'⟩ | ⟨hnone, hr'⟩
    · obtain ⟨result, hresult⟩ := Option.isSome_iff_exists.mp hsome
      have hsubmit : w.host.submit call.server op =
          ((w.host.submit call.server op).1, some (result.1, result.2)) := by
        rw [← hresult]
      rw [hsubmit]
      refine .one (hstep (decide ((w.rf call.server).state = .leader)) true) ?_
      rw [henter true, if_pos rfl]
      have hhost : Simulates codec { w with host := (w.host.submit call.server op).1 }
          { v with proposals := v.proposals ++ [op] } := h.setHost hr' ⟨rfl, rfl, rfl⟩
      exact hhost.advance k call (.waiting result.2)
    · have hsubmit : w.host.submit call.server op = ((w.host.submit call.server op).1, none) := by
        rw [← hnone]
      rw [hsubmit]
      refine .one (hstep (decide ((w.rf call.server).state = .leader)) false) ?_
      rw [henter false, if_neg Bool.false_ne_true]
      have hhost : Simulates codec { w with host := (w.host.submit call.server op).1 } v :=
        h.setHost hr' ⟨rfl, rfl, rfl⟩
      exact hhost.advance k call (.replied {})

theorem Simulates.wake (h : Simulates codec w v) {k : Nat} {call : Call n} {startTerm : Nat}
    (hk : w.calls[k]? = some call) (hwaiting : call.progress = .waiting startTerm)
    (hwake : w.wake k call startTerm = some w') : Follows codec v w' := by
  obtain ⟨reply, hreply, rfl⟩ := Option.map_eq_some_iff.mp hwake
  have hcall : v.calls[k]? = some call.erase := by rw [h.getElem?, hk, Option.map_some]
  have hprogress : call.erase.progress = .waiting := by
    simp [Call.erase, hwaiting, Progress.erase]
  have hstep : KVRaft.step v (.wake k (decide ((w.rf call.server).state = .leader ∧
      (w.rf call.server).currentTerm = startTerm))) =
        some (v.advance k call.erase (.replied reply)) := by
    simp only [KVRaft.step, hcall, hprogress, if_true]
    rw [show v.servers call.erase.server = w.kv call.server from h.servers call.server,
      show call.erase.args = call.args from rfl, hreply]
    rfl
  exact .one hstep (h.advance k call (.replied reply))

/-! ### Servers -/

theorem Simulates.restart (h : Simulates codec w v) {s : Fin n}
    (hok : Raft.recovers w.host.raft (.restart s)) :
    Follows codec v { w.stopHandlers s with host := w.host.restart (kvService codec) s } := by
  obtain ⟨chosen, rest, hr⟩ := h.agreed
  obtain ⟨a₁, a', hinstall, hrestart, hr'⟩ := hr.restart hok
  cases hrestart
  have hstopped : ∀ {v₁ : KVRaft.World n}, v₁.agreed = a₁ → SameClients v v₁ →
      Simulates codec { w.stopHandlers s with host := w.host.restart (kvService codec) s }
        (v₁.restart s) := by
    rintro v₁ rfl hsame
    constructor
    case agreed =>
      refine ⟨chosen, rest, ?_⟩
      have hagreed : (v₁.restart s).agreed = v₁.agreed.restart (kvService codec).toMachine s := by
        unfold AgreedLog.restart KVRaft.World.restart World.agreed AgreedLog.setState
        dsimp only
        congr 2
        cases v₁.persisted s <;> rfl
      rw [hagreed]
      exact hr'
    case clerks => exact hsame.clerks.trans h.clerks
    case calls =>
      show v₁.calls.map _ = (w.calls.map _).map Call.erase
      rw [hsame.calls, h.calls, List.map_map, List.map_map]
      exact List.map_congr_left fun call _ => (erase_stop s call).symm
    case history => exact hsame.history.trans h.history
  rcases hinstall with rfl | ⟨j, hj⟩
  · have hstep : KVRaft.step v (.restart s) = some (v.restart s) := rfl
    exact .one hstep (hstopped rfl ⟨rfl, rfl, rfl⟩)
  · obtain ⟨v₁, hv₁, hagreed, hsame⟩ := lift_install hj
    refine ⟨[.install s j, .restart s], v₁.restart s, ?_, hstopped hagreed hsame⟩
    rw [System.run, show (KVRaft.service n).step v (.install s j) = some v₁ from hv₁]
    rfl

theorem Simulates.host (h : Simulates codec w v) {act : Raft.Host.Action n Op Unit}
    {host : Raft.Host n Op KVServer} (hsubmit : ∀ s op, act ≠ .submit s op)
    (hrestart : ∀ s, act ≠ .restart s) (hok : Raft.Host.recovers w.host act)
    (hstep : Raft.Host.step (kvService codec) w.host act = some host) :
    Follows codec v { w with host := host } := by
  obtain ⟨chosen, rest, hr⟩ := h.agreed
  cases act with
  | raft act =>
    simp only [Raft.Host.step, Option.ite_none_right_eq_some, Option.map_eq_some_iff] at hstep
    obtain ⟨hinternal, raft', hraft, rfl⟩ := hstep
    exact .stay (h.setHost (hr.internal hinternal hok hraft) ⟨rfl, rfl, rfl⟩)
  | submit s op => exact absurd rfl (hsubmit s op)
  | receive s =>
    obtain ⟨a', chosen', rest', rfl | ⟨j, hj⟩, hr'⟩ := hr.receive hstep
    · exact .stay (h.setHost hr' ⟨rfl, rfl, rfl⟩)
    · obtain ⟨v', hv', rfl, hsame⟩ := lift_append hj
      exact .one hv' (h.setHost hr' hsame)
  | process s o =>
    simp only [Raft.Host.step, Option.ite_none_right_eq_some, Option.bind_eq_some_iff] at hstep
    obtain ⟨hup, m, hinbox, hprocess⟩ := hstep
    obtain ⟨a', rfl | happly | ⟨j, hj⟩, hr'⟩ := hr.process hup hinbox hprocess
    · exact .stay (h.setHost hr' ⟨rfl, rfl, rfl⟩)
    · obtain ⟨v', hv', rfl, hsame⟩ := lift_apply happly
      exact .one hv' (h.setHost hr' hsame)
    · obtain ⟨v', hv', rfl, hsame⟩ := lift_install hj
      exact .one hv' (h.setHost hr' hsame)
  | snapshot s =>
    simp only [Raft.Host.step, Option.ite_none_right_eq_some, Option.some.injEq] at hstep
    obtain ⟨⟨hup, htakes⟩, rfl⟩ := hstep
    have hstep : KVRaft.step v (.snapshot s) = some (v.snapshot s) := rfl
    have hsnapshot : Raft.Represents (kvService codec) (w.host.snapshot (kvService codec) s)
        (v.snapshot s).agreed chosen rest := hr.snapshot hup htakes
    exact .one hstep (h.setHost hsnapshot ⟨rfl, rfl, rfl⟩)
  | restart s => exact absurd rfl (hrestart s)

/-- **Every step of the stack is one of the abstract service, or none, or two.** -/
theorem Simulates.step (h : Simulates codec w v) {act : Action n} (hok : recovers w act)
    (hstep : Stack.step codec w act = some w') : Follows codec v w' := by
  cases act with
  | invoke c request =>
    simp only [Stack.step, Option.ite_none_right_eq_some, Option.some.injEq] at hstep
    obtain ⟨hidle, rfl⟩ := hstep
    have hinvoke : KVRaft.step v (.invoke c request) = some (v.invoke c request) := by
      simp only [KVRaft.step, h.clerks, hidle, if_true]
    exact .one hinvoke (h.invoke c request)
  | attempt c =>
    simp only [Stack.step] at hstep
    split at hstep
    · rename_i request hrequest hpending
      cases hstep
      have hattempt : KVRaft.step v (.attempt c) = some (v.attempt c request) := by
        simp only [KVRaft.step, h.clerks, hrequest, hpending]
      exact .one hattempt (h.attempt c request)
    · cases hstep
  | enter k =>
    simp only [Stack.step] at hstep
    cases hk : w.calls[k]? with
    | none =>
      rw [hk] at hstep
      cases hstep
    | some call =>
      rw [hk] at hstep
      cases hp : call.progress with
      | sent =>
        simp only [hp, Option.ite_none_right_eq_some, Option.some.injEq] at hstep
        obtain ⟨hup, rfl⟩ := hstep
        exact h.enter hk hp hup
      | _ => simp [hp] at hstep
  | wake k =>
    simp only [Stack.step] at hstep
    cases hk : w.calls[k]? with
    | none =>
      rw [hk] at hstep
      cases hstep
    | some call =>
      rw [hk] at hstep
      cases hp : call.progress with
      | waiting startTerm =>
        simp only [hp, Option.ite_none_right_eq_some] at hstep
        exact h.wake hk hp hstep.2
      | _ => simp [hp] at hstep
  | fail c =>
    simp only [Stack.step] at hstep
    split at hstep
    · cases hstep
    · rename_i hpending
      cases hstep
      have hfail : KVRaft.step v (.fail c) = some (v.setClerk c (v.clerks c).retry) := by
        simp only [KVRaft.step, h.clerks, hpending, if_false]
      exact .one hfail (h.retry c)
  | finish c =>
    simp only [Stack.step] at hstep
    cases hk : (w.clerks c).pending.bind (w.calls[·]?) with
    | none =>
      rw [hk] at hstep
      cases hstep
    | some call =>
      rw [hk] at hstep
      cases hp : call.progress with
      | replied reply =>
        simp only [hp, Option.ite_none_right_eq_some, Option.some.injEq] at hstep
        obtain ⟨hsuccess, rfl⟩ := hstep
        have hcall : (v.clerks c).pending.bind (v.calls[·]?) = some call.erase := by
          obtain ⟨k, hpending, hk⟩ := Option.bind_eq_some_iff.mp hk
          rw [h.clerks, hpending, Option.bind_some, h.getElem?, hk, Option.map_some]
        have hfinish : KVRaft.step v (.finish c) = some (v.finish c reply) := by
          simp only [KVRaft.step, hcall, Call.erase, hp, Progress.erase, hsuccess, if_true]
        exact .one hfinish (h.finish c reply)
      | _ => simp [hp] at hstep
  | host act =>
    have hhostOk : Raft.Host.recovers w.host act := hok
    cases act with
    | submit s op => cases hstep
    | restart s =>
      cases hstep
      exact h.restart hok
    | _ =>
      obtain ⟨host, hhost, rfl⟩ := Option.map_eq_some_iff.mp hstep
      exact h.host (by simp) (by simp) hhostOk hhost

theorem simulates_initial : Simulates codec (.initial codec n) (.initial n) where
  agreed := ⟨[], [], Raft.represents_initial (kvService codec)⟩
  clerks := rfl
  calls := rfl
  history := rfl

/-- The abstract service can do what the stack does. -/
theorem simulates_reach (hw : (service codec n).Reach recovers w) :
    ∃ v, (KVRaft.service n).Reach System.anyStep v ∧ Simulates codec w v := by
  refine hw.invariant (P := fun w => ∃ v, (KVRaft.service n).Reach System.anyStep v ∧
    Simulates codec w v) ⟨_, .init, simulates_initial⟩ ?_
  rintro w act w' - ⟨v, hv, hsim⟩ hok hstep
  obtain ⟨acts, v', hrun, hsim'⟩ := hsim.step hok hstep
  exact ⟨v', System.reach_run hv (fun _ _ => trivial) acts hrun, hsim'⟩

omit [NeZero n] in
/-- An order that explains the history of the abstract service, with what its beginnings leave. -/
theorem exists_order {v : KVRaft.World n} (h : Sound v) :
    ∃ S, Linearizes mapObject v.history S ∧ ∀ p, ∃ S', S' <+: S ∧ mapObject.run mapObject.init S' =
      mapObject.run mapObject.init ((slotsFrom {} v.log).take p).reduceOption := by
  obtain ⟨S, hlin, -, hinitial⟩ := exists_linearization h.records.sorted h.records.once
    (slotsFrom_once {} v.log) (legal_slotsFrom {} v.log) (fun _ _ hi => h.slot_fits hi)
    (fun _ _ _ hresp => h.explained hresp)
  exact ⟨S, hlin, hinitial⟩

/-- A timely run that recovers is a run of the service without arrays. -/
theorem reach_of_timely {x : Raft.InMemory (World n) n Op}
    (h : (carrier codec n).inMemory.Reach ((carrier codec n).timely recovers) x) :
    (service codec n).Reach recovers x.state := by
  refine (carrier codec n).reach_state (fun w _ i hw _ _ => ?_) h
  obtain ⟨v, -, hsim⟩ := simulates_reach hw
  obtain ⟨chosen, rest, hr⟩ := hsim.agreed
  exact Raft.commitIndex_le_of_recovers hr.reach i

/-- **The key/value service over its own Raft is linearizable.** In every timely run in which the
restarts of servers lose nothing that matters, with any elections, lost messages and snapshots, some
order of the calls explains what the callers of the clerks have seen; executing the calls in this
order passes through the map of every server. -/
theorem linearizable_over_raft {x : Raft.InMemory (World n) n Op}
    (hx : (carrier codec n).inMemory.Reach ((carrier codec n).timely recovers) x) :
    ∃ S, Linearizes mapObject x.state.history S ∧
      ∀ s, ∃ S', S' <+: S ∧ (x.state.kv s).kvMap = mapObject.run mapObject.init S' := by
  obtain ⟨v, hv, hsim⟩ := simulates_reach (reach_of_timely hx)
  have h := sound_reach hv
  obtain ⟨S, hlin, hinitial⟩ := exists_order h
  refine ⟨S, hsim.history ▸ hlin, fun s => ?_⟩
  obtain ⟨p, hp, hs⟩ := h.replicas.server s
  obtain ⟨S', hS', hrun'⟩ := hinitial p.length
  refine ⟨S', hS', ?_⟩
  rw [← hsim.servers s, hrun', slotsFrom_take, ← List.prefix_iff_eq_take.mp hp, hs]
  exact (run_slotsFrom {} p).symm

end Steps

/-! ### There is a codec -/

def codeOf : Args → (String × Nat × Nat) ⊕ (String × String × PutAppendKind × Nat × Nat)
  | .get args => .inl (args.key, args.clientId, args.reqNo)
  | .putAppend args => .inr (args.key, args.value, args.op, args.clientId, args.reqNo)

theorem codeOf_injective : Function.Injective codeOf := by
  intro a b h
  cases a with
  | get a =>
    cases b with
    | get b =>
      obtain ⟨_, _, _⟩ := a
      obtain ⟨_, _, _⟩ := b
      simpa [codeOf] using h
    | putAppend b => cases h
  | putAppend a =>
    cases b with
    | get b => cases h
    | putAppend b =>
      obtain ⟨_, _, _, _, _⟩ := a
      obtain ⟨_, _, _, _, _⟩ := b
      simpa [codeOf] using h

/-- Logs can be counted, so that the states they lead to have names of bytes. -/
theorem countable_logs : Countable (List Op) := by
  have : Countable Char := Function.Injective.countable (f := Char.toNat)
    fun _ _ h => Char.toNat_inj.mp h
  have : Countable String := Function.Injective.countable (f := String.toList)
    fun _ _ h => String.toList_inj.mp h
  have : Countable PutAppendKind := by
    refine Function.Injective.countable (f := fun kind => decide (kind = .put)) ?_
    intro a b
    cases a <;> cases b <;> simp
  have : Countable Args := codeOf_injective.countable
  have : Countable Op := by
    refine Function.Injective.countable (f := fun op : Op => (op.arg, op.clientId, op.reqNo)) ?_
    intro a b h
    obtain ⟨_, _, _⟩ := a
    obtain ⟨_, _, _⟩ := b
    simpa using h
  infer_instance

theorem exists_number : ∃ f : List Op → Nat, Function.Injective f := by
  have := countable_logs
  exact exists_injective_nat _

/-- The bytes of a log, in unary. -/
noncomputable def bytesOf (log : List Op) : Raft.Bytes :=
  List.replicate (exists_number.choose log + 1) default

theorem bytesOf_injective : Function.Injective bytesOf := by
  intro a b h
  have hlength := congrArg List.length h
  simp only [bytesOf, List.length_replicate, Nat.add_right_cancel_iff] at hlength
  exact exists_number.choose_spec hlength

open Classical in
/-- A codec: a state is written as some log that leads to it. -/
noncomputable def someCodec : Codec where
  encode kv := if h : ∃ log, kv = replay log then bytesOf h.choose else [default]
  decode data := if h : ∃ log, data = bytesOf log then some (replay h.choose) else none
  decode_encode log := by
    have hstate : ∃ log', replay log = replay log' := ⟨log, rfl⟩
    have hdata : ∃ log', bytesOf hstate.choose = bytesOf log' := ⟨_, rfl⟩
    rw [dif_pos hstate, dif_pos hdata, ← bytesOf_injective hdata.choose_spec]
    exact congrArg some hstate.choose_spec.symm
  encode_ne_nil kv := by
    split
    · simp [bytesOf]
    · simp

/-- Server `i` leads term 1. A clerk appends; its first attempt goes to server `i`, which replicates
to server `j`, commits, applies, takes a snapshot and answers. A second clerk reads. -/
def appendThenGet (i j : Fin n) : List (Action n) :=
  [.host (.raft (.electionTimeout i)), .host (.raft (.handle 0)), .host (.raft (.ret 0)),
   .invoke 0 (.putAppend .append "k" "a"), .attempt 0, .enter 0,
   .host (.raft (.replicateLog i j 1)), .host (.raft (.handle 4)), .host (.raft (.ret 4)),
   .host (.raft (.updateCommitIndex i 1)), .host (.raft (.applyTake i)), .host (.receive i),
   .host (.process i ()), .host (.raft (.applyDone i)), .wake 0, .finish 0, .host (.snapshot i),
   .invoke 1 (.get "k"), .attempt 1, .enter 1,
   .host (.raft (.replicateLog i j 1)), .host (.raft (.handle 5)), .host (.raft (.ret 5)),
   .host (.raft (.updateCommitIndex i 1)), .host (.raft (.applyTake i)), .host (.receive i),
   .host (.process i ()), .wake 1, .finish 1]

theorem appendThenGet_runs :
    (((carrier someCodec 3).inMemory.runWhere ((carrier someCodec 3).timely recovers)
        (carrier someCodec 3).inMemory.init (Raft.scheduled [] (appendThenGet 0 1))).map
      (·.state.history)) =
      some [.invoke (0, 1) (.putAppend .append "k" "a"), .respond (0, 1) "",
        .invoke (1, 1) (.get "k"), .respond (1, 1) "a"] := by
  decide +kernel

theorem linearizable_over_raft_appendThenGet : ∃ x : Raft.InMemory (World 3) 3 Op,
    (carrier someCodec 3).inMemory.Reach ((carrier someCodec 3).timely recovers) x ∧
    x.state.history = [.invoke (0, 1) (.putAppend .append "k" "a"), .respond (0, 1) "",
      .invoke (1, 1) (.get "k"), .respond (1, 1) "a"] ∧
    ∃ S, Linearizes mapObject x.state.history S ∧
      ∀ s, ∃ S', S' <+: S ∧ (x.state.kv s).kvMap = mapObject.run mapObject.init S' := by
  obtain ⟨x, hrun, hhist⟩ := Option.map_eq_some_iff.mp appendThenGet_runs
  have hreach := System.reach_runWhere .init _ hrun
  exact ⟨x, hreach, hhist, linearizable_over_raft hreach⟩

end Stack
end RaftLabs.KVRaft
