import RaftLabs.Lib.Linearizability
import RaftLabs.ShardCtrler.Server

/-! The replicated shard controller: servers over one log, and any number of clerks.

Raft is taken for what it guarantees: one growing log, of which every server applies a prefix
in order. The controller has no snapshots, so a server that restarts applies the log from its
beginning. Which server says that it leads, whether `Start` accepts, in which order loops go
through maps, when handlers are woken and which messages are lost is up to the scheduler. An
attempt that a clerk has given up on can still reach its server. A server whose process panics
takes no step.

`trace` is what the callers of the clerks see, each event with the length of the log at that
moment. Only `Query` returns its configuration. -/
namespace RaftLabs.ShardCtrler
open Lib

/-- The name of a clerk's call: the clerk and its request number. -/
abbrev CallId := Nat × Nat

/-- The command of a call. -/
def Op.ofCall (id : CallId) (args : Args) : Op := ⟨id.1, id.2, args⟩

/-- A clerk and the call it is busy with; `pending` is the number of its current attempt. -/
structure Clerk where
  reqNo : Nat := 0
  call : Option Args := none
  pending : Option Nat := none

/-- How far an attempt has come. -/
inductive Progress where
  | sent
  | waiting
  | replied (reply : Reply)
  | gone

/-- An attempt of a clerk: one remote call. -/
structure Call where
  server : Nat
  id : CallId
  args : Args
  progress : Progress

def Call.op (call : Call) : Op := .ofCall call.id call.args

/-- Server `s` has stopped, and its handlers with it. -/
def Call.stop (s : Nat) (call : Call) : Call :=
  match call.progress with
  | .waiting => if call.server = s then { call with progress := .gone } else call
  | _ => call

structure World where
  log : List Op
  proposals : List Op
  servers : Nat → Server
  seq : Nat
  clerks : Nat → Clerk
  calls : List Call
  trace : List (HistoryEvent CallId Args Config × Nat)

namespace World

def initial : World where
  log := []
  proposals := []
  servers := fun _ => {}
  seq := 0
  clerks := fun _ => {}
  calls := []
  trace := []

/-- What the clerks' callers have seen. -/
def history (w : World) : List (HistoryEvent CallId Args Config) := w.trace.map (·.1)

def observe (w : World) (e : HistoryEvent CallId Args Config) : World :=
  { w with trace := w.trace ++ [(e, w.log.length)] }

def setClerk (w : World) (c : Nat) (ck : Clerk) : World :=
  { w with clerks := Function.update w.clerks c ck }

def setServer (w : World) (s : Nat) (srv : Server) : World :=
  { w with servers := Function.update w.servers s srv }

/-- Call `k`, which is `call`, moves on. -/
def advance (w : World) (k : Nat) (call : Call) (progress : Progress) : World :=
  { w with calls := w.calls.set k { call with progress := progress } }

/-- A caller calls clerk `c`. -/
def invoke (w : World) (c : Nat) (args : Args) : World :=
  ({ w with seq := w.seq + 1 }.setClerk c { reqNo := w.seq + 1, call := some args }).observe
    (.invoke (c, w.seq + 1) args)

/-- Clerk `c` tries server `s`. -/
def attempt (w : World) (c : Nat) (args : Args) (s : Nat) : World :=
  { w with
    clerks := Function.update w.clerks c { w.clerks c with pending := some w.calls.length }
    calls := w.calls ++ [⟨s, (c, (w.clerks c).reqNo), args, .sent⟩] }

/-- Call `k` reaches its server. -/
def enter (w : World) (k : Nat) (call : Call) (isLeader started : Bool) : World :=
  match (w.servers call.server).enter isLeader call.op with
  | .reply reply => w.advance k call (.replied reply)
  | .start op =>
    if started then { w with proposals := w.proposals ++ [op] }.advance k call .waiting
    else w.advance k call (.replied { wrongLeader := true })

/-- Clerk `c` gets the answer of its attempt. -/
def finish (w : World) (c : Nat) (reply : Reply) : World :=
  (w.setClerk c { reqNo := (w.clerks c).reqNo }).observe
    (.respond (c, (w.clerks c).reqNo) reply.config)

/-- Server `s` starts over. -/
def restart (w : World) (s : Nat) : World :=
  { w.setServer s {} with calls := w.calls.map (Call.stop s) }

end World

/-- The scheduler's choices. -/
inductive Action where
  | invoke (c : Nat) (args : Args)
  | attempt (c : Nat) (s : Nat)
  | enter (k : Nat) (isLeader started : Bool)
  | wake (k : Nat) (leads : Bool)
  | fail (c : Nat)
  | finish (c : Nat)
  | append (j : Nat)
  | apply (s : Nat) (orders : Orders)
  | restart (s : Nat)

def step (w : World) : Action → Option World
  | .invoke c args =>
    match (w.clerks c).call with
    | none => some (w.invoke c args)
    | some _ => none
  | .attempt c s =>
    match (w.clerks c).call, (w.clerks c).pending with
    | some args, none => some (w.attempt c args s)
    | _, _ => none
  | .enter k isLeader started =>
    match w.calls[k]? with
    | none => none
    | some call =>
      match call.progress with
      | .sent => some (w.enter k call isLeader started)
      | _ => none
  | .wake k leads =>
    match w.calls[k]? with
    | none => none
    | some call =>
      match call.progress with
      | .waiting =>
        match (w.servers call.server).wake leads call.op with
        | .reply reply => some (w.advance k call (.replied reply))
        | .wait => some w
        | .panic => none
      | _ => none
  -- the remote call came back without an answer, or from a server that does not lead
  | .fail c =>
    match (w.clerks c).pending with
    | none => none
    | some _ => some (w.setClerk c { w.clerks c with pending := none })
  | .finish c =>
    match (w.clerks c).pending.bind (w.calls[·]?) with
    | none => none
    | some call =>
      match call.progress with
      | .replied reply => if reply.wrongLeader then none else some (w.finish c reply)
      | _ => none
  | .append j =>
    (w.proposals[j]?).map fun op =>
      { w with log := w.log ++ [op], proposals := w.proposals.eraseIdx j }
  | .apply s orders =>
    let srv := w.servers s
    (w.log[srv.commitedId]?).bind fun op =>
      (srv.applyCommand orders op (srv.commitedId + 1)).map (w.setServer s)
  | .restart s => some (w.restart s)

/-- The controller's servers and their clerks. -/
def service : System World Action where
  init := .initial
  step := step

end RaftLabs.ShardCtrler
