import RaftLabs.Lib.Linearizability
import RaftLabs.Lib.Transition
import RaftLabs.KVRaft.Server

/-! The replicated key/value service: `n` servers over one log, and any number of clerks.

Raft is taken for what it guarantees. There is one growing log; every server applies
a prefix of it in order; a command passed to `Start` at a server that takes itself for
the leader is put at the end of the log later, or never. Which server says that it
leads, whether `Start` accepts, when handlers are woken, which attempts of a clerk fail
and when servers snapshot, catch up from a snapshot or restart is up to the scheduler.
An attempt that a clerk has given up on can still reach its server.

`trace` is what the callers of the clerks see, each event with the length of the log at
that moment. -/
namespace RaftLabs.KVRaft
open Lib

/-- How far an attempt has come. -/
inductive Progress where
  | sent
  | waiting
  | replied (reply : Reply)
  | gone
deriving DecidableEq, Repr

/-- An attempt of a clerk: one remote call. -/
structure Call (n : Nat) where
  server : Fin n
  args : Args
  progress : Progress

/-- The name of a clerk's call: the clerk and its request number. -/
abbrev CallId := Nat × Nat

structure World (n : Nat) where
  log : List Op
  proposals : List Op
  servers : Fin n → KVServer
  persisted : Fin n → Option KVServer
  snapshots : List KVServer
  clerks : Nat → Clerk n
  calls : List (Call n)
  trace : List (HistoryEvent CallId Request String × Nat)

variable {n : Nat}

namespace World

def initial (n : Nat) [NeZero n] : World n where
  log := []
  proposals := []
  servers := fun _ => .startKVServer none
  persisted := fun _ => none
  snapshots := []
  clerks := fun _ => makeClerk n
  calls := []
  trace := []

/-- What the clerks' callers have seen. -/
def history (w : World n) : List (HistoryEvent CallId Request String) := w.trace.map (·.1)

def observe (w : World n) (e : HistoryEvent CallId Request String) : World n :=
  { w with trace := w.trace ++ [(e, w.log.length)] }

def setClerk (w : World n) (c : Nat) (ck : Clerk n) : World n :=
  { w with clerks := Function.update w.clerks c ck }

def setServer (w : World n) (s : Fin n) (kv : KVServer) : World n :=
  { w with servers := Function.update w.servers s kv }

/-- Server `s` hands a snapshot to Raft, which saves it and may send it to others. -/
def snapshot (w : World n) (s : Fin n) : World n :=
  { w with
    persisted := Function.update w.persisted s (some (w.servers s))
    snapshots := w.snapshots ++ [w.servers s] }

/-- Raft at server `s` saves a snapshot it was sent and passes it on to the server. -/
def install (w : World n) (s : Fin n) (data : KVServer) : World n :=
  { w with
    persisted := Function.update w.persisted s (some data)
    servers := Function.update w.servers s
      ((w.servers s).applySnapshot data.commitedId data) }

/-- Call `k`, which is `call`, moves on. -/
def advance (w : World n) (k : Nat) (call : Call n) (progress : Progress) : World n :=
  { w with calls := w.calls.set k { call with progress := progress } }

/-- A caller calls clerk `c`. -/
def invoke (w : World n) (c : Nat) (request : Request) : World n :=
  (w.setClerk c ((w.clerks c).begin request)).observe
    (.invoke (c, (w.clerks c).reqNo + 1) request)

/-- Clerk `c` makes its next attempt. -/
def attempt (w : World n) (c : Nat) (request : Request) : World n :=
  let ck := w.clerks c
  { w with
    clerks := Function.update w.clerks c { ck with pending := some w.calls.length }
    calls := w.calls ++ [⟨ck.target, Clerk.args c ck.reqNo request, .sent⟩] }

/-- Call `k` reaches its server. -/
def enter (w : World n) (k : Nat) (call : Call n) (isLeader started : Bool) : World n :=
  match (w.servers call.server).serve isLeader call.args with
  | .reply reply => w.advance k call (.replied reply)
  | .start op =>
    if started then { w with proposals := w.proposals ++ [op] }.advance k call .waiting
    else w.advance k call (.replied {})

/-- Clerk `c` gets the answer of its attempt. -/
def finish (w : World n) (c : Nat) (reply : Reply) : World n :=
  (w.setClerk c (w.clerks c).done).observe (.respond (c, (w.clerks c).reqNo) reply.value)

/-- Server `s` starts over from its persister; its handlers are gone. -/
def restart (w : World n) (s : Fin n) : World n :=
  { w with
    servers := Function.update w.servers s (.startKVServer (w.persisted s))
    calls := w.calls.map fun call =>
      if call.server = s ∧ call.progress = .waiting then { call with progress := .gone } else call }

end World

/-- The scheduler's choices. -/
inductive Action (n : Nat) where
  | invoke (c : Nat) (request : Request)
  | attempt (c : Nat)
  | enter (k : Nat) (isLeader started : Bool)
  | wake (k : Nat) (leads : Bool)
  | fail (c : Nat)
  | finish (c : Nat)
  | append (j : Nat)
  | apply (s : Fin n)
  | snapshot (s : Fin n)
  | install (s : Fin n) (j : Nat)
  | restart (s : Fin n)

def step [NeZero n] (w : World n) : Action n → Option (World n)
  | .invoke c request =>
    if (w.clerks c).request = none then some (w.invoke c request) else none
  | .attempt c =>
    match (w.clerks c).request, (w.clerks c).pending with
    | some request, none => some (w.attempt c request)
    | _, _ => none
  | .enter k isLeader started =>
    match w.calls[k]? with
    | none => none
    | some call => if call.progress = .sent then some (w.enter k call isLeader started) else none
  | .wake k leads =>
    match w.calls[k]? with
    | none => none
    | some call =>
      if call.progress = .waiting then
        ((w.servers call.server).serveWoken leads call.args).map fun reply =>
          w.advance k call (.replied reply)
      else none
  -- the remote call came back without an answer, or with a reply that says so
  | .fail c =>
    if (w.clerks c).pending = none then none else some (w.setClerk c (w.clerks c).retry)
  | .finish c =>
    match (w.clerks c).pending.bind (w.calls[·]?) with
    | none => none
    | some call =>
      match call.progress with
      | .replied reply => if reply.success then some (w.finish c reply) else none
      | _ => none
  | .append j =>
    (w.proposals[j]?).map fun op =>
      { w with log := w.log ++ [op], proposals := w.proposals.eraseIdx j }
  | .apply s =>
    let kv := w.servers s
    (w.log[kv.commitedId]?).map fun op =>
      w.setServer s (kv.applyCommand op (kv.commitedId + 1))
  | .snapshot s => some (w.snapshot s)
  | .install s j => (w.snapshots[j]?).map (w.install s)
  | .restart s => some (w.restart s)

/-- The service with `n` servers. -/
def service (n : Nat) [NeZero n] : System (World n) (Action n) where
  init := .initial n
  step := step

/-- The map of strings that the service implements. -/
def mapObject : Object (String → String) Request String where
  init := fun _ => ""
  step kvMap
    | .get key => (kvMap, kvMap key)
    | .putAppend .put key value => (Function.update kvMap key value, "")
    | .putAppend .append key value => (Function.update kvMap key (kvMap key ++ value), "")

end RaftLabs.KVRaft
