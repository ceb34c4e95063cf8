import RaftLabs.Raft.Replication
import RaftLabs.KVRaft.Linear

/-! The key/value service on top of its own Raft.

Nothing is taken for granted here that the code does not do. The servers are hosted by a Raft
cluster with all its messages, elections, snapshots and crashes; a handler asks `GetState` and
`Start` of the Raft server it runs with, remembers the term that `Start` returned and compares it
when it is woken. The clerks and their attempts are those of the service over an abstract log. -/
namespace RaftLabs.KVRaft
open Lib

/-- How a server's state is written to bytes and read back. What `ReadSnapshot` cannot decode it
ignores; what was encoded decodes. -/
structure Codec where
  encode : KVServer → Raft.Bytes
  decode : Raft.Bytes → Option KVServer
  decode_encode : ∀ log, decode (encode (replay log)) = some (replay log)
  encode_ne_nil : ∀ kv, encode kv ≠ []

theorem Codec.decode_replay (codec : Codec) (kv : KVServer) (h : ∃ log, kv = replay log) :
    codec.decode (codec.encode kv) = some kv := by
  obtain ⟨log, rfl⟩ := h
  exact codec.decode_encode log

/-- The next command of the log. -/
theorem applyCommand_next {kv kv' : KVServer} {op : Op} (h : ∃ log, kv = replay log)
    (happly : some (kv.applyCommand op (kv.commitedId + 1)) = some kv') :
    (∃ log, kv' = replay log) ∧ kv'.commitedId = kv.commitedId + 1 := by
  obtain ⟨log, rfl⟩ := h
  cases happly
  refine ⟨⟨log ++ [op], ?_⟩, ?_⟩
  · rw [replay, replay, replayFrom_append]
    rfl
  · rw [KVServer.commitedId_applyCommand]
    omega

/-- `KVServer` as a service that Raft hosts. -/
def kvService (codec : Codec) : Raft.Service KVServer Op Unit where
  start := .startKVServer none
  apply _ kv op index := some (kv.applyCommand op index)
  position := KVServer.commitedId
  Valid kv := ∃ log, kv = replay log
  valid_start := ⟨[], rfl⟩
  position_start := rfl
  apply_next := applyCommand_next
  takesSnapshots := true
  encode := codec.encode
  decode := codec.decode
  decode_encode _ := codec.decode_replay
  encode_ne_nil := codec.encode_ne_nil

namespace Stack
variable {n : Nat}

/-- How far an attempt has come; a handler that waits knows the term that `Start` returned. -/
inductive Progress where
  | sent
  | waiting (startTerm : Nat)
  | replied (reply : Reply)
  | gone

/-- An attempt of a clerk: one remote call. -/
structure Call (n : Nat) where
  server : Fin n
  args : Args
  progress : Progress

structure World (n : Nat) where
  host : Raft.Host n Op KVServer
  clerks : Nat → Clerk n
  calls : List (Call n)
  history : List (HistoryEvent CallId Request String)

namespace World

def initial (codec : Codec) (n : Nat) [NeZero n] : World n where
  host := .initial (kvService codec)
  clerks := fun _ => makeClerk n
  calls := []
  history := []

/-- The Raft server behind server `s`. -/
def rf (w : World n) (s : Fin n) : Raft n Op := (w.host.raft.nodes s).raft

def kv (w : World n) (s : Fin n) : KVServer := (w.host.replicas s).state

def setClerk (w : World n) (c : Nat) (ck : Clerk n) : World n :=
  { w with clerks := Function.update w.clerks c ck }

/-- Call `k`, which is `call`, moves on. -/
def advance (w : World n) (k : Nat) (call : Call n) (progress : Progress) : World n :=
  { w with calls := w.calls.set k { call with progress := progress } }

/-- A caller calls clerk `c`. -/
def invoke (w : World n) (c : Nat) (request : Request) : World n :=
  { w.setClerk c ((w.clerks c).begin request) with
    history := w.history ++ [.invoke (c, (w.clerks c).reqNo + 1) request] }

/-- Clerk `c` makes its next attempt. -/
def attempt (w : World n) (c : Nat) (request : Request) : World n :=
  let ck := w.clerks c
  { w with
    clerks := Function.update w.clerks c { ck with pending := some w.calls.length }
    calls := w.calls ++ [⟨ck.target, Clerk.args c ck.reqNo request, .sent⟩] }

/-- Call `k` reaches its server: `GetState`, the table, `Start`. -/
def enter (w : World n) (k : Nat) (call : Call n) : World n :=
  let isLeader := decide ((w.rf call.server).state = .leader)
  match (w.kv call.server).serve isLeader call.args with
  | .reply reply => w.advance k call (.replied reply)
  | .start op =>
    match w.host.submit call.server op with
    | (host, some (_, startTerm)) => { w with host := host }.advance k call (.waiting startTerm)
    | (host, none) => { w with host := host }.advance k call (.replied {})

/-- The handler of call `k`, which started its command in `startTerm`, is woken. -/
def wake (w : World n) (k : Nat) (call : Call n) (startTerm : Nat) : Option (World n) :=
  let rf := w.rf call.server
  let leads := decide (rf.state = .leader ∧ rf.currentTerm = startTerm)
  ((w.kv call.server).serveWoken leads call.args).map fun reply => w.advance k call (.replied reply)

/-- Clerk `c` gets the answer of its attempt. -/
def finish (w : World n) (c : Nat) (reply : Reply) : World n :=
  { w.setClerk c (w.clerks c).done with
    history := w.history ++ [.respond (c, (w.clerks c).reqNo) reply.value] }

/-- Server `s` starts over; its handlers are gone. -/
def stopHandlers (w : World n) (s : Fin n) : World n :=
  { w with
    calls := w.calls.map fun call =>
      match call.progress with
      | .waiting _ => if call.server = s then { call with progress := .gone } else call
      | _ => call }

end World

/-- The scheduler's choices. -/
inductive Action (n : Nat) where
  | invoke (c : Nat) (request : Request)
  | attempt (c : Nat)
  | enter (k : Nat)
  | wake (k : Nat)
  | fail (c : Nat)
  | finish (c : Nat)
  | host (a : Raft.Host.Action n Op Unit)

def step (codec : Codec) [NeZero n] (w : World n) : Action n → Option (World n)
  | .invoke c request =>
    if (w.clerks c).request = none then some (w.invoke c request) else none
  | .attempt c =>
    match (w.clerks c).request, (w.clerks c).pending with
    | some request, none => some (w.attempt c request)
    | _, _ => none
  | .enter k =>
    match w.calls[k]? with
    | none => none
    | some call =>
      match call.progress with
      | .sent => if (w.host.raft.nodes call.server).up then some (w.enter k call) else none
      | _ => none
  | .wake k =>
    match w.calls[k]? with
    | none => none
    | some call =>
      match call.progress with
      | .waiting startTerm =>
        if (w.host.raft.nodes call.server).up then w.wake k call startTerm else none
      | _ => none
  | .fail c =>
    if (w.clerks c).pending = none then none else some (w.setClerk c (w.clerks c).retry)
  | .finish c =>
    match (w.clerks c).pending.bind (w.calls[·]?) with
    | none => none
    | some call =>
      match call.progress with
      | .replied reply => if reply.success then some (w.finish c reply) else none
      | _ => none
  | .host a =>
    match a with
    -- commands come from handlers only
    | .submit _ _ => none
    | .restart s =>
      some { w.stopHandlers s with host := w.host.restart (kvService codec) s }
    | a => (Raft.Host.step (kvService codec) w.host a).map fun host => { w with host := host }

/-- The key/value service with `n` servers over Raft. -/
def service (codec : Codec) (n : Nat) [NeZero n] : System (World n) (Action n) where
  init := .initial codec n
  step := step codec

/-- Nothing that matters is lost in the step. -/
def recovers (w : World n) : Action n → Prop
  | .host a => Raft.Host.recovers w.host a
  | _ => True

instance (w : World n) : (a : Action n) → Decidable (recovers w a)
  | .host a => inferInstanceAs (Decidable (Raft.Host.recovers w.host a))
  | .invoke _ _ | .attempt _ | .enter _ | .wake _ | .fail _ | .finish _ => isTrue trivial

/-! ### On arrays -/

/-- The step of Raft that an action is. -/
def raftAction : Action n → Option (Raft.Action n Op)
  | .host a => Raft.Host.raftAction a
  | _ => none

/-- Whose log an action edits; of the handlers only one that is entered calls `Start`. -/
def editOf (w : World n) : Action n → Option (Fin n × Raft.Edit)
  | .host a => Raft.Host.editOf w.host a
  | .enter k => w.calls[k]?.map fun call => (call.server, .append)
  | _ => none

theorem edited_enter (w : World n) (k : Nat) (call : Call n) :
    Raft.Edited (some (call.server, .append)) w.host.raft (w.enter k call).host.raft := by
  unfold World.enter
  dsimp only
  split
  · exact .of_same fun _ => rfl
  · rename_i op _
    have hsubmit : Raft.Edited (some (call.server, .append)) w.host.raft
        (w.host.submit call.server op).1.raft := .append rfl
    split
    · rename_i heq
      rw [heq] at hsubmit
      exact hsubmit
    · rename_i heq
      rw [heq] at hsubmit
      exact hsubmit

section Step
variable {codec : Codec} [NeZero n] {w w' : World n}

/-- A step of the host, in which no handler takes part. -/
theorem step_host {act : Raft.Host.Action n Op Unit} (hstep : step codec w (.host act) = some w') :
    Raft.Host.step (kvService codec) w.host act = some w'.host := by
  cases act with
  | submit s op => cases hstep
  | restart s =>
    cases hstep
    rfl
  | _ =>
    obtain ⟨host, hhost, rfl⟩ := Option.map_eq_some_iff.mp hstep
    exact hhost

theorem edited_step {act : Action n} (hstep : step codec w act = some w') :
    Raft.Edited (editOf w act) w.host.raft w'.host.raft := by
  cases act with
  | invoke c request =>
    simp only [step, Option.ite_none_right_eq_some, Option.some.injEq] at hstep
    obtain ⟨-, rfl⟩ := hstep
    exact .of_same fun _ => rfl
  | attempt c =>
    simp only [step] at hstep
    split at hstep
    · cases hstep
      exact .of_same fun _ => rfl
    · cases hstep
  | enter k =>
    simp only [step] at hstep
    split at hstep
    · cases hstep
    · rename_i call hk
      split at hstep
      · simp only [Option.ite_none_right_eq_some, Option.some.injEq] at hstep
        obtain ⟨-, rfl⟩ := hstep
        rw [editOf, hk]
        exact edited_enter w k call
      · cases hstep
  | wake k =>
    simp only [step] at hstep
    split at hstep
    · cases hstep
    · split at hstep
      · rw [Option.ite_none_right_eq_some] at hstep
        obtain ⟨reply, -, rfl⟩ := Option.map_eq_some_iff.mp hstep.2
        exact .of_same fun _ => rfl
      · cases hstep
  | fail c =>
    simp only [step, Option.ite_none_left_eq_some, Option.some.injEq] at hstep
    obtain ⟨-, rfl⟩ := hstep
    exact .of_same fun _ => rfl
  | finish c =>
    simp only [step] at hstep
    split at hstep
    · cases hstep
    · split at hstep
      · simp only [Option.ite_none_right_eq_some, Option.some.injEq] at hstep
        obtain ⟨-, rfl⟩ := hstep
        exact .of_same fun _ => rfl
      · cases hstep
  | host act => exact Raft.Host.edited_step (kvService codec) w.host (step_host hstep)

theorem step_applyTake {act : Action n} {i : Fin n} (hact : raftAction act = some (.applyTake i))
    (hstep : step codec w act = some w') :
    w' = { w with host := { w.host with raft := w.host.raft.applyTake i } } := by
  cases act with
  | host act =>
    cases act with
    | raft act =>
      obtain ⟨host, hhost, rfl⟩ := Option.map_eq_some_iff.mp hstep
      have hact : Raft.Host.raftAction (.raft act : Raft.Host.Action n Op Unit) =
        some (.applyTake i) := hact
      rw [Raft.Host.step_applyTake (kvService codec) w.host hact hhost]
    | _ => cases hact
  | _ => cases hact

end Step

/-- The service carries a cluster. -/
def carrier (codec : Codec) (n : Nat) [NeZero n] : Raft.Carrier (World n) (Action n) n Op where
  toSystem := service codec n
  raft w := w.host.raft
  setRaft w raft := { w with host := { w.host with raft := raft } }
  action := raftAction
  edit := editOf
  raft_setRaft _ _ := rfl
  setRaft_raft _ := rfl
  init_logs _ := rfl
  step_applyTake _ _ _ _ hact hstep := step_applyTake hact hstep
  edited _ _ _ hstep := edited_step hstep

end Stack
end RaftLabs.KVRaft
