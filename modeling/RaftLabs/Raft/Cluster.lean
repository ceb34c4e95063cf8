import RaftLabs.Lib.Transition
import RaftLabs.Raft.Handlers

/-! A cluster of Raft servers, the calls between them and the scheduler.

Every locked section of the code is one action, and so is every choice the code
leaves open: when a timer fires, when a request reaches its server, when a call
returns, when a server stops and starts again. A remote call is a record that is
made once and moves forward only: its request is handled at most once, and its
reply reaches the caller at most once. A call can be lost before or after its
request was handled; the caller then sees a failed call and a zero reply. A
restart keeps only the persister; calls made by an earlier incarnation still
reach their servers but no longer return.

`trace` is what an outside observer has seen: votes, leaders, commit decisions
and the messages on the apply channels. -/
namespace RaftLabs.Raft
open Lib

variable {n : Nat} {C : Type}

inductive Args (n : Nat) (C : Type) where
  | requestVote (args : RequestVoteArgs n)
  | appendEntries (args : AppendEntriesArgs n C)
  | installSnapshot (args : InstallSnapshotArg n)

inductive Reply where
  | requestVote (reply : RequestVoteReply)
  | appendEntries (reply : AppendEntriesReply)
  | installSnapshot (reply : InstallSnapshotReply)

/-- The reply variable of an `AppendEntries` call that returned: still zero when the
call failed. -/
def Reply.appendEntries? : Option Reply → AppendEntriesReply
  | some (.appendEntries reply) => reply
  | _ => {}

/-- The same for `InstallSnapshot`. -/
def Reply.installSnapshot? : Option Reply → InstallSnapshotReply
  | some (.installSnapshot reply) => reply
  | _ => {}

/-- How far a call has come. A returned call keeps the reply it returned with,
`none` when it failed. -/
inductive Progress where
  | sent
  | handled (reply : Reply)
  | lost
  | returned (reply : Option Reply)

/-- A remote call of incarnation `epoch` of `src`. -/
structure Call (n : Nat) (C : Type) where
  src : Fin n
  epoch : Nat
  dst : Fin n
  args : Args n C
  progress : Progress

/-- What an observer sees. `commit` carries the log in which `CommitIndex` was set. -/
inductive Event (n : Nat) (C : Type) where
  | vote (voter candidate : Fin n) (term : Nat)
  | lead (server : Fin n) (term : Nat)
  | commit (server : Fin n) (term commitIndex : Nat) (logs : List (RaftLogEntry C))
  | deliver (server : Fin n) (msg : ApplyMsg C)
deriving DecidableEq, Repr

/-- A server with its goroutines. `votes` and `done` are the variables of
`issueLeaderElection`, one pair for each term it ran in; `leading` lists the terms
whose `replicateLog` and `updateCommitIndex` goroutines were started; `applying`
is `applyLog` between its two locked sections; `delivered` is the last index the
service behind the apply channel knows. A server that panicked is not `up`. -/
structure Node (n : Nat) (C : Type) where
  raft : Raft n C
  votes : Nat → Nat
  done : Nat → Bool
  leading : List Nat
  applying : Option (List (ApplyMsg C) × Option Nat)
  epoch : Nat
  delivered : Nat
  up : Bool

structure World (n : Nat) (C : Type) where
  nodes : Fin n → Node n C
  calls : List (Call n C)
  trace : List (Event n C)

/-- A node freshly made over its persister. The service restores the persister's
snapshot. -/
def Node.boot (me : Fin n) (persister : Persister n C) (epoch : Nat) : Node n C where
  raft := make me persister
  votes := fun _ => 0
  done := fun _ => false
  leading := []
  applying := none
  epoch := epoch
  delivered := (make me persister).snapshotLastIncludedIndex
  up := true

namespace World

/-- All servers started on empty persisters. -/
def initial (n : Nat) (C : Type) : World n C where
  nodes := fun i => .boot i {} 0
  calls := []
  trace := []

def setNode (w : World n C) (i : Fin n) (node : Node n C) : World n C :=
  { w with nodes := Function.update w.nodes i node }

def setRaft (w : World n C) (i : Fin n) (rf : Raft n C) : World n C :=
  w.setNode i { w.nodes i with raft := rf }

/-- A panic stops the process. -/
def panic (w : World n C) (i : Fin n) : World n C :=
  w.setNode i { w.nodes i with up := false }

def send (w : World n C) (calls : List (Call n C)) : World n C :=
  { w with calls := w.calls ++ calls }

def setCall (w : World n C) (k : Nat) (call : Call n C) : World n C :=
  { w with calls := w.calls.set k call }

/-- Call `k`, which is `c`, moves on. -/
def advance (w : World n C) (k : Nat) (c : Call n C) (progress : Progress) : World n C :=
  w.setCall k { c with progress := progress }

def observe (w : World n C) (events : List (Event n C)) : World n C :=
  { w with trace := w.trace ++ events }

/-- A call that server `i` makes now. -/
def call (w : World n C) (i j : Fin n) (args : Args n C) : Call n C :=
  { src := i, epoch := (w.nodes i).epoch, dst := j, args := args, progress := .sent }

/-- Everyone but `i`, in the order of the source's loops. -/
def others (i : Fin n) : List (Fin n) := (List.finRange n).filter (· ≠ i)

/-- `sendHeartBeat` of server `i`. -/
def sendHeartBeat (w : World n C) (i : Fin n) : World n C :=
  match (others i).mapM (fun j => (heartBeatArgs (w.nodes i).raft j).map (j, ·)) with
  | none => w.panic i
  | some args => w.send (args.map fun p => w.call i p.1 (.appendEntries p.2))

/-- The ticker of a server that is not the leader, its timer having fired: the
election and the request to every peer. -/
def electionTimeout (w : World n C) (i : Fin n) : World n C :=
  let node := w.nodes i
  let (rf, args) := prepareElection node.raft
  ((w.setNode i
      { node with
        raft := rf
        votes := Function.update node.votes args.term 1
        done := Function.update node.done args.term false }).send
    ((others i).map fun j => w.call i j (.requestVote args))).observe
      [.vote i i args.term]

/-- One round of the goroutine `replicateLog(j, leaderTerm)` of server `i`. -/
def replicate (w : World n C) (i j : Fin n) (leaderTerm : Nat) : World n C :=
  let rf := (w.nodes i).raft
  if rf.currentTerm ≠ leaderTerm then w
  else
    match replicateLog rf j with
    | none => w.panic i
    | some .upToDate => w
    | some (.snapshot args) => w.send [w.call i j (.installSnapshot args)]
    | some (.entries args) => w.send [w.call i j (.appendEntries args)]

/-- One round of the goroutine `updateCommitIndex(leaderTerm)` of server `i`. -/
def commit (w : World n C) (i : Fin n) (leaderTerm : Nat) : World n C :=
  let rf := (w.nodes i).raft
  if rf.currentTerm ≠ leaderTerm then w
  else
    match rf.updateCommitIndex leaderTerm with
    | (_, false) => w
    | (rf', true) =>
      (w.setRaft i rf').observe [.commit i leaderTerm rf'.commitIndex rf'.logs]

/-- Request `k` is handled by its server. -/
def handle (w : World n C) (k : Nat) (c : Call n C) : World n C :=
  let rf := (w.nodes c.dst).raft
  match c.args with
  | .requestVote args =>
    let (rf', reply) := rf.requestVote args
    ((w.setRaft c.dst rf').advance k c (.handled (.requestVote reply))).observe
      (if reply.voteGranted then [.vote c.dst args.candidateId args.term] else [])
  | .appendEntries args =>
    match rf.appendEntries args with
    | none => w.panic c.dst
    | some (rf', reply) =>
      (w.setRaft c.dst rf').advance k c (.handled (.appendEntries reply))
  | .installSnapshot args =>
    match rf.installSnapshot args with
    | none => w.panic c.dst
    | some (rf', reply) =>
      (w.setRaft c.dst rf').advance k c (.handled (.installSnapshot reply))

/-- The goroutine of `issueLeaderElection` behind a vote request, after its call
has returned a reply. -/
def voteReturned (w : World n C) (i : Fin n) (args : RequestVoteArgs n)
    (reply : RequestVoteReply) : World n C :=
  let node := w.nodes i
  let rf := node.raft
  if reply.voteGranted then
    let votes := node.votes args.term + 1
    let w := w.setNode i { node with votes := Function.update node.votes args.term votes }
    if node.done args.term ∨ votes ≤ rf.half then w
    else if rf.currentTerm ≠ args.term then w
    else
      (((w.setNode i
          { w.nodes i with
            raft := rf.becomeLeader
            done := Function.update node.done args.term true
            leading := rf.currentTerm :: node.leading }).observe
        [.lead i rf.currentTerm]).sendHeartBeat i)
  else if rf.currentTerm < reply.term then w.setRaft i (rf.stepDown reply.term).persist
  else w

/-- The caller of call `c` resumes with its result. The goroutines behind
`AppendEntries` and `InstallSnapshot` look at the reply even when the call failed. -/
def resume (w : World n C) (c : Call n C) (reply : Option Reply) : World n C :=
  let rf := (w.nodes c.src).raft
  match c.args, reply with
  | .requestVote args, some (.requestVote reply) => w.voteReturned c.src args reply
  | .requestVote _, _ => w
  | .appendEntries args, reply =>
    match rf.appendEntriesReturned c.dst args (Reply.appendEntries? reply) with
    | none => w.panic c.src
    | some rf' => w.setRaft c.src rf'
  | .installSnapshot args, reply =>
    w.setRaft c.src (rf.installSnapshotReturned c.dst args (Reply.installSnapshot? reply))

/-- Call `k` returns; only the incarnation that made it takes notice. -/
def finish (w : World n C) (k : Nat) (c : Call n C) (reply : Option Reply) : World n C :=
  let w := w.advance k c (.returned reply)
  if (w.nodes c.src).epoch = c.epoch ∧ (w.nodes c.src).up then w.resume c reply else w

/-- Server `i` after the first locked section of its `applyLog`. -/
def take (w : World n C) (i : Fin n) :
    Option (Raft n C × List (ApplyMsg C) × Option Nat) → World n C
  | none => w.panic i
  | some (rf, msgs, last) =>
    w.setNode i { w.nodes i with raft := rf, applying := some (msgs, last) }

/-- `applyLog` of server `i` takes what there is to apply. -/
def applyTake (w : World n C) (i : Fin n) : World n C :=
  w.take i (w.nodes i).raft.applyLog

/-- The service receives the next message. -/
def applySend (w : World n C) (i : Fin n) (msg : ApplyMsg C) (rest : List (ApplyMsg C))
    (last : Option Nat) : World n C :=
  let node := w.nodes i
  (w.setNode i
    { node with
      applying := some (rest, last)
      delivered := max node.delivered (max msg.commandIndex msg.snapshotIndex) }).observe
    [.deliver i msg]

/-- `applyLog` of server `i` takes the lock again. -/
def applyDone (w : World n C) (i : Fin n) (last : Option Nat) : World n C :=
  w.setNode i { w.nodes i with raft := (w.nodes i).raft.applied last, applying := none }

/-- Server `i` stops wherever it is and starts over from its persister. -/
def restart (w : World n C) (i : Fin n) : World n C :=
  w.setNode i (.boot i (w.nodes i).raft.persister ((w.nodes i).epoch + 1))

end World

/-- The scheduler's choices. -/
inductive Action (n : Nat) (C : Type) where
  | electionTimeout (i : Fin n)
  | heartBeat (i : Fin n)
  | replicateLog (i j : Fin n) (leaderTerm : Nat)
  | updateCommitIndex (i : Fin n) (leaderTerm : Nat)
  | handle (k : Nat)
  | lose (k : Nat)
  | ret (k : Nat)
  | start (i : Fin n) (command : C)
  | snapshot (i : Fin n) (index : Nat) (data : Bytes)
  | applyTake (i : Fin n)
  | applySend (i : Fin n)
  | applyDone (i : Fin n)
  | restart (i : Fin n)

/-- One action. A service can snapshot what it was delivered, no more: it "has
created a snapshot that has all info up to and including index". -/
def step (w : World n C) : Action n C → Option (World n C)
  | .electionTimeout i =>
    if (w.nodes i).up ∧ (w.nodes i).raft.state ≠ .leader then some (w.electionTimeout i) else none
  | .heartBeat i =>
    if (w.nodes i).up ∧ (w.nodes i).raft.state = .leader then some (w.sendHeartBeat i) else none
  | .replicateLog i j leaderTerm =>
    if (w.nodes i).up ∧ leaderTerm ∈ (w.nodes i).leading ∧ j ≠ i then
      some (w.replicate i j leaderTerm)
    else none
  | .updateCommitIndex i leaderTerm =>
    if (w.nodes i).up ∧ leaderTerm ∈ (w.nodes i).leading then some (w.commit i leaderTerm)
    else none
  | .handle k =>
    match w.calls[k]? with
    | none => none
    | some c =>
      match c.progress with
      | .sent => if (w.nodes c.dst).up then some (w.handle k c) else none
      | _ => none
  | .lose k =>
    match w.calls[k]? with
    | none => none
    | some c =>
      match c.progress with
      | .sent | .handled _ => some (w.advance k c .lost)
      | _ => none
  | .ret k =>
    match w.calls[k]? with
    | none => none
    | some c =>
      match c.progress with
      | .handled reply => some (w.finish k c (some reply))
      | .lost => some (w.finish k c none)
      | _ => none
  | .start i command =>
    if (w.nodes i).up then some (w.setRaft i ((w.nodes i).raft.start command).1) else none
  | .snapshot i index data =>
    if (w.nodes i).up ∧ index ≤ (w.nodes i).delivered then
      match (w.nodes i).raft.snapshot index data with
      | none => some (w.panic i)
      | some rf => some (w.setRaft i rf)
    else none
  | .applyTake i =>
    if (w.nodes i).up ∧ (w.nodes i).applying.isNone ∧ (w.nodes i).raft.hasWork then
      some (w.applyTake i)
    else none
  | .applySend i =>
    match (w.nodes i).up, (w.nodes i).applying with
    | true, some (msg :: rest, last) => some (w.applySend i msg rest last)
    | _, _ => none
  | .applyDone i =>
    match (w.nodes i).up, (w.nodes i).applying with
    | true, some ([], last) => some (w.applyDone i last)
    | _, _ => none
  | .restart i => some (w.restart i)

/-- Clusters of `n` servers replicating commands of type `C`, on values: every request is sent as it
was made. `processes` of `Raft.Memory` are clusters on arrays. -/
def cluster (n : Nat) (C : Type) : System (World n C) (Action n C) where
  init := .initial n C
  step := step

/-- The action restarts no server. -/
def crashFree (_ : World n C) : Action n C → Prop
  | .restart _ => False
  | _ => True

instance (w : World n C) : (a : Action n C) → Decidable (crashFree w a)
  | .restart _ => isFalse id
  | .electionTimeout _ | .heartBeat _ | .replicateLog _ _ _ | .updateCommitIndex _ _ | .handle _
  | .lose _ | .ret _ | .start _ _ | .snapshot _ _ _ | .applyTake _ | .applySend _
  | .applyDone _ => isTrue trivial

end RaftLabs.Raft
