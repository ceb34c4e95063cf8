import RaftLabs.Lib.Linearizability
import RaftLabs.ShardKV.Server

/-! The sharded key/value service: groups of replicas, the messages between them, and clerks.

Raft is taken for what it guarantees: each group has one growing log, and every replica applies
a prefix of it in order. `commits` lists the entries of all logs in the order in which they were
first applied by some replica, so the log of a group is what it contributed to this list, and
the state of a group is the state after this log. A proposed command gets its place in the log
when the first replica applies it, or never.

The controller's history of configurations is given from the start; when a group gets to know a
configuration is up to the scheduler. So is everything else the code leaves open: which
replica says that it leads, which replica answers a request, which group and replica a clerk
tries, when a message is lost and when a replica snapshots, catches up or restarts. A request
for shards can be answered any number of times and by any replica of the group it is for.

A channel of `CompletedChan` is named by the remote call whose handler made it. -/
namespace RaftLabs.ShardKV
open Lib ShardCtrler

/-- The configurations of the controller, by number. -/
structure ConfigHistory where
  config : Nat → Option Config
  zero : config 0 = some {}
  num : ∀ n cfg, config n = some cfg → cfg.num = n

/-- What a caller asks of a clerk. -/
inductive Request where
  | get (key : String)
  | putAppend (op : PutAppendKind) (key value : String)
deriving DecidableEq, Repr

def Request.key : Request → String
  | .get key => key
  | .putAppend _ key _ => key

/-- The name of a clerk's call: the clerk and its request number. -/
abbrev CallId := Nat × Nat

/-- What the callers of the clerks see. -/
inductive Event where
  | invoke (id : CallId) (request : Request)
  | respond (id : CallId) (request : Request) (value : String)
deriving DecidableEq

/-- A clerk and the call it is busy with; `pending` is the number of its current attempt. -/
structure Clerk where
  reqNo : Nat := 0
  request : Option Request := none
  pending : Option Nat := none

/-- The request record that clerk `me` sends, the same for every attempt. -/
def Clerk.args (me reqNo : Nat) : Request → Args
  | .get key => .get { key := key, shardId := key2shard key, clientId := me, reqNo := reqNo }
  | .putAppend op key value =>
    .putAppend
      { key := key, value := value, op := op, shardId := key2shard key, clientId := me,
        reqNo := reqNo }

inductive Progress where
  | sent
  | waiting
  | replied (reply : Reply)
  | gone
deriving DecidableEq, Repr

/-- An attempt of a clerk: one remote call to a replica of a group. -/
structure Call where
  gid : Int
  replica : Nat
  args : Args
  progress : Progress

/-- A replica with its persister, its channels, and its round of `sayHello`: the configuration
whose groups it asks, and what it has heard. -/
structure Replica where
  skv : ShardKV
  persisted : Option ShardKV := none
  completedChan : Nat → Option Nat := fun _ => none
  round : Option (Config × GoMap Int Nat) := none

structure Group where
  proposals : List Op
  replicas : Nat → Replica
  snapshots : List ShardKV

structure World where
  commits : List (Int × Op)
  groups : Int → Group
  pulls : List Pull
  seq : Nat
  clerks : Nat → Clerk
  calls : List Call
  results : List (Nat × Result)
  trace : List (Event × Nat)

/-- The log of a group. -/
def logOf (gid : Int) (commits : List (Int × Op)) : List Op :=
  (commits.filter (·.1 = gid)).map (·.2)

namespace World

def initial : World where
  commits := []
  groups := fun gid =>
    { proposals := [], replicas := fun _ => { skv := startServer gid none }, snapshots := [] }
  pulls := []
  seq := 0
  clerks := fun _ => {}
  calls := []
  results := []
  trace := []

def replica (w : World) (g : Int) (r : Nat) : Replica := (w.groups g).replicas r

def skv (w : World) (g : Int) (r : Nat) : ShardKV := (w.replica g r).skv

def setGroup (w : World) (g : Int) (group : Group) : World :=
  { w with groups := Function.update w.groups g group }

def setReplica (w : World) (g : Int) (r : Nat) (replica : Replica) : World :=
  w.setGroup g
    { w.groups g with replicas := Function.update (w.groups g).replicas r replica }

/-- The server of a replica changes. -/
def setSkv (w : World) (g : Int) (r : Nat) (skv : ShardKV) : World :=
  w.setReplica g r { w.replica g r with skv := skv }

/-- A command is passed to `Start` at a replica of the group. -/
def propose (w : World) (g : Int) (op : Op) : World :=
  w.setGroup g { w.groups g with proposals := (w.groups g).proposals ++ [op] }

def setClerk (w : World) (c : Nat) (ck : Clerk) : World :=
  { w with clerks := Function.update w.clerks c ck }

def observe (w : World) (e : Event) : World :=
  { w with trace := w.trace ++ [(e, w.commits.length)] }

/-- Call `k`, which is `call`, moves on. -/
def advance (w : World) (k : Nat) (call : Call) (progress : Progress) : World :=
  { w with calls := w.calls.set k { call with progress := progress } }

/-- `skv.CompletedChan[clientId] = ...`, or its deletion. -/
def setChan (w : World) (call : Call) (chan : Option Nat) : World :=
  let replica := w.replica call.gid call.replica
  w.setReplica call.gid call.replica
    { replica with
      completedChan := Function.update replica.completedChan call.args.clientId chan }

/-- A caller calls clerk `c`. -/
def invoke (w : World) (c : Nat) (request : Request) : World :=
  ({ w with seq := w.seq + 1 }.setClerk c { reqNo := w.seq + 1, request := some request }).observe
    (.invoke (c, w.seq + 1) request)

/-- Clerk `c` tries replica `r` of group `g`. -/
def attempt (w : World) (c : Nat) (request : Request) (g : Int) (r : Nat) : World :=
  { w with
    clerks := Function.update w.clerks c { w.clerks c with pending := some w.calls.length }
    calls := w.calls ++ [⟨g, r, Clerk.args c (w.clerks c).reqNo request, .sent⟩] }

/-- Call `k` reaches its replica. -/
def enter (w : World) (k : Nat) (call : Call) (isLeader started : Bool) : World :=
  match (w.skv call.gid call.replica).serve isLeader call.args with
  | .reply reply => w.advance k call (.replied reply)
  | .start op =>
    if started then ((w.propose call.gid op).setChan call (some k)).advance k call .waiting
    else w.advance k call (.replied { err := .wrongLeader })

/-- The handler of call `k` stops waiting. -/
def answer (w : World) (k : Nat) (call : Call) (reply : Reply) : World :=
  (w.setChan call none).advance k call (.replied reply)

/-- Clerk `c` gets the answer of its attempt. -/
def finish (w : World) (c : Nat) (request : Request) (reply : Reply) : World :=
  (w.setClerk c { reqNo := (w.clerks c).reqNo }).observe
    (.respond (c, (w.clerks c).reqNo) request reply.value)

/-- Replica `r` of group `g` applies the command `op`; the result of a client's operation goes
to the channel of the client, if there is one. -/
def apply (w : World) (g : Int) (r : Nat) (op : Op) : World :=
  let skv := w.skv g r
  { w.setSkv g r (skv.applyCommand op (skv.commitedId + 1)) with
    results := w.results ++ (skv.applyResult op).toList.filterMap fun result =>
      ((w.replica g r).completedChan result.clientId).map (·, result) }

/-- Proposal `j` of group `g`, which is `op`, becomes the next entry of the group's log. -/
def commit (w : World) (g : Int) (j : Nat) (op : Op) : World :=
  { w.setGroup g { w.groups g with proposals := (w.groups g).proposals.eraseIdx j } with
    commits := w.commits ++ [(g, op)] }

/-- Replica `r` of group `g` looks for missing shards. -/
def pull (w : World) (g : Int) (r : Nat) : World :=
  match (w.skv g r).pullShards with
  | .inl op => w.propose g op
  | .inr pulls => { w with pulls := w.pulls ++ pulls }

/-- Replica `r` of group `g` starts over from its persister; its handlers are gone. -/
def restart (w : World) (g : Int) (r : Nat) : World :=
  let persisted := (w.replica g r).persisted
  { w.setReplica g r { skv := startServer g persisted, persisted := persisted } with
    calls := w.calls.map fun call =>
      if call.gid = g ∧ call.replica = r ∧ call.progress = .waiting then
        { call with progress := .gone }
      else call }

end World

/-- The scheduler's choices. -/
inductive Action where
  | invoke (c : Nat) (request : Request)
  | attempt (c : Nat) (g : Int) (r : Nat)
  | enter (k : Nat) (isLeader started : Bool)
  | receive (k i : Nat)
  | timeout (k : Nat)
  | fail (c : Nat)
  | finish (c : Nat)
  | commit (g : Int) (r : Nat) (j : Nat)
  | apply (g : Int) (r : Nat)
  | updateConfig (g : Int) (r : Nat) (isLeader : Bool)
  | checkMissShards (g : Int) (r : Nat) (isLeader : Bool)
  | shardDock (j : Nat) (r : Nat)
  | sayHello (g : Int) (r : Nat)
  | hello (g : Int) (r : Nat) (target : Int) (replica : Nat) (isLeader : Bool)
  | clean (g : Int) (r : Nat) (merge order : RangeOrder Int)
  | snapshot (g : Int) (r : Nat)
  | install (g : Int) (r : Nat) (j : Nat)
  | restart (g : Int) (r : Nat)

/-- One action, with the configurations of `H`. Groups have nonzero gids. -/
def step (H : ConfigHistory) (w : World) : Action → Option World
  | .invoke c request =>
    if (w.clerks c).request = none then some (w.invoke c request) else none
  | .attempt c g r =>
    match (w.clerks c).request, (w.clerks c).pending with
    | some request, none => if g = 0 then none else some (w.attempt c request g r)
    | _, _ => none
  | .enter k isLeader started =>
    match w.calls[k]? with
    | none => none
    | some call => if call.progress = .sent then some (w.enter k call isLeader started) else none
  | .receive k i =>
    match w.calls[k]?, w.results[i]? with
    | some call, some (chan, result) =>
      if call.progress = .waiting ∧ chan = k then
        some (w.answer k call (received call.args result))
      else none
    | _, _ => none
  | .timeout k =>
    match w.calls[k]? with
    | none => none
    | some call =>
      if call.progress = .waiting then some (w.answer k call { err := .timeOut }) else none
  -- the remote call came back without an answer, or with an error
  | .fail c =>
    if (w.clerks c).pending = none then none
    else some (w.setClerk c { w.clerks c with pending := none })
  | .finish c =>
    match (w.clerks c).request, (w.clerks c).pending.bind (w.calls[·]?) with
    | some request, some call =>
      match call.progress with
      | .replied reply =>
        if reply.err = .ok ∨ (reply.err = .noKey ∧ request = .get request.key) then
          some (w.finish c request reply)
        else none
      | _ => none
    | _, _ => none
  -- the first replica to get to the end of its group's log
  | .commit g r j =>
    if g = 0 ∨ (w.skv g r).commitedId ≠ (logOf g w.commits).length then none
    else ((w.groups g).proposals[j]?).map fun op => (w.commit g j op).apply g r op
  | .apply g r => ((logOf g w.commits)[(w.skv g r).commitedId]?).map (w.apply g r)
  | .updateConfig g r isLeader =>
    (H.config ((w.skv g r).curConfig.num + 1)).bind fun next =>
      ((w.skv g r).updateConfig isLeader next).map (w.propose g)
  | .checkMissShards g r isLeader =>
    if isLeader ∧ (w.skv g r).isMigrateFinished = false then some (w.pull g r) else none
  | .shardDock j r =>
    (w.pulls[j]?).bind fun pull =>
      ((w.skv pull.target r).shardDock pull.configNum pull.shardIds).map (w.propose pull.gid)
  | .sayHello g r =>
    let replica := w.replica g r
    some (w.setReplica g r
      { replica with
        round := some (replica.skv.curConfig, replica.skv.gid2UnCompletedConfigNum) })
  | .hello g r target replica isLeader =>
    match (w.replica g r).round with
    | none => none
    | some (cfg, nums) =>
      if isLeader ∧ target ∈ cfg.groups.keys ∧ target ≠ g ∧ target ≠ 0 then
        some (w.setReplica g r
          { w.replica g r with
            round := some (cfg,
              nums.set target (max (nums.getD target 0) (w.skv target replica).hello)) })
      else none
  | .clean g r merge order =>
    (w.replica g r).round.map fun round =>
      w.setReplica g r
        { w.replica g r with skv := (w.skv g r).heard merge order round.2, round := none }
  | .snapshot g r =>
    some (w.setGroup g
      { w.groups g with
        snapshots := (w.groups g).snapshots ++ [w.skv g r]
        replicas := Function.update (w.groups g).replicas r
          { w.replica g r with persisted := some (w.skv g r) } })
  | .install g r j =>
    ((w.groups g).snapshots[j]?).map fun data =>
      w.setReplica g r
        { w.replica g r with
          persisted := some data
          skv := (w.skv g r).applySnapshot data.commitedId data }
  | .restart g r => some (w.restart g r)

/-- The service over the configurations of `H`. -/
def service (H : ConfigHistory) : System World Action where
  init := .initial
  step := step H

end RaftLabs.ShardKV
