import Mathlib.Algebra.GroupWithZero.Nat
import Mathlib.Logic.Function.Basic

/-! The key/value server over Raft and its clerk.

A Go map that is only ever read with its zero value as default is a total
function; `CompletedPool`, which is also asked whether it has a key, keeps `none`
for a missing one. An `Op` holds the one argument record that `IsGetOp` selects. A
handler runs in two locked sections: it is entered, and unless it answers at once
it passes an `Op` to `Start` and waits; every time it is woken it looks at the
table again. Whether Raft says that this server leads, and in which term, is
decided outside, so these answers are arguments here. -/
namespace RaftLabs.KVRaft

inductive PutAppendKind where
  | put
  | append
deriving DecidableEq, Repr

structure PutAppendArgs where
  key : String
  value : String
  op : PutAppendKind
  clientId : Nat
  reqNo : Nat
deriving DecidableEq, Repr

structure GetArgs where
  key : String
  clientId : Nat
  reqNo : Nat
deriving DecidableEq, Repr

/-- The arguments of a request to a server. -/
inductive Args where
  | get (args : GetArgs)
  | putAppend (args : PutAppendArgs)
deriving DecidableEq, Repr

def Args.clientId : Args → Nat
  | .get args => args.clientId
  | .putAppend args => args.clientId

def Args.reqNo : Args → Nat
  | .get args => args.reqNo
  | .putAppend args => args.reqNo

/-- `GetReply` and `PutAppendReply`; the latter has no value. -/
structure Reply where
  success : Bool := false
  value : String := ""
deriving DecidableEq, Repr

/-- A command in Raft's log. -/
structure Op where
  arg : Args
  clientId : Nat
  reqNo : Nat
deriving DecidableEq, Repr

/-- The state of a `KVServer`; it is also what a snapshot encodes. -/
structure KVServer where
  kvMap : String → String := fun _ => ""
  completedPool : Nat → Option Nat := fun _ => none
  commitedId : Nat := 0

/-- What a handler does when it is entered: answer, or pass an operation to `Start`. -/
inductive Entered where
  | reply (reply : Reply)
  | start (op : Op)

namespace KVServer

/-- `CompletedPool[clientId]`, zero when there is none. -/
def completed (kv : KVServer) (clientId : Nat) : Nat := (kv.completedPool clientId).getD 0

/-- The part of `Get` and `PutAppend` before the wait. -/
def enter (kv : KVServer) (isLeader : Bool) (clientId reqNo : Nat) (value : String) (op : Op) :
    Entered :=
  if !isLeader then .reply {}
  else if reqNo ≤ kv.completed clientId then .reply { success := true, value := value }
  else .start op

/-- One round of the wait: `leads` is that the server still leads in the term it
started in. `none` when it goes on waiting. -/
def wake (kv : KVServer) (leads : Bool) (clientId reqNo : Nat) (value : String) : Option Reply :=
  if !leads then some {}
  else if kv.completedPool clientId = some reqNo then some { success := true, value := value }
  else none

def get (kv : KVServer) (isLeader : Bool) (args : GetArgs) : Entered :=
  kv.enter isLeader args.clientId args.reqNo (kv.kvMap args.key)
    { arg := .get args, clientId := args.clientId, reqNo := args.reqNo }

def getWoken (kv : KVServer) (leads : Bool) (args : GetArgs) : Option Reply :=
  kv.wake leads args.clientId args.reqNo (kv.kvMap args.key)

def putAppend (kv : KVServer) (isLeader : Bool) (args : PutAppendArgs) : Entered :=
  kv.enter isLeader args.clientId args.reqNo ""
    { arg := .putAppend args, clientId := args.clientId, reqNo := args.reqNo }

def putAppendWoken (kv : KVServer) (leads : Bool) (args : PutAppendArgs) : Option Reply :=
  kv.wake leads args.clientId args.reqNo ""

/-- What `applyLog` writes for a command that is not a duplicate. -/
def write (kvMap : String → String) : Args → String → String
  | .get _ => kvMap
  | .putAppend args =>
    match args.op with
    | .put => Function.update kvMap args.key args.value
    | .append => Function.update kvMap args.key (kvMap args.key ++ args.value)

/-- `applyLog` on a command. -/
def applyCommand (kv : KVServer) (msg : Op) (commandIndex : Nat) : KVServer :=
  if kv.completed msg.clientId < msg.reqNo then
    { kvMap := write kv.kvMap msg.arg
      completedPool := Function.update kv.completedPool msg.clientId (some msg.reqNo)
      commitedId := max kv.commitedId commandIndex }
  else { kv with commitedId := max kv.commitedId commandIndex }

/-- `ReadSnapshot`; `none` is a persister without a snapshot. -/
def readSnapshot (kv : KVServer) : Option KVServer → KVServer
  | none => kv
  | some data => data

/-- `applyLog` on a snapshot that reaches up to `snapshotIndex`. -/
def applySnapshot (kv : KVServer) (snapshotIndex : Nat) (data : KVServer) : KVServer :=
  if kv.commitedId < snapshotIndex then kv.readSnapshot (some data) else kv

/-- `StartKVServer`: fresh maps, then the persister's snapshot. -/
def startKVServer (snapshot : Option KVServer) : KVServer := readSnapshot {} snapshot

end KVServer

/-! ### The clerk -/

/-- What a caller asks of a clerk: `Get(key)` or `PutAppend(key, value, op)`. -/
inductive Request where
  | get (key : String)
  | putAppend (op : PutAppendKind) (key value : String)
deriving DecidableEq, Repr

/-- A clerk. While it serves a `request` it holds its mutex. `position` is where its
loop stands: `none` at `servers[recentLeader]`, `some i` at `servers[i]` of the inner loop;
`pending` is the number of the remote call it waits for. -/
structure Clerk (n : Nat) where
  recentLeader : Fin n
  reqNo : Nat := 0
  request : Option Request := none
  position : Option (Fin n) := none
  pending : Option Nat := none

def makeClerk (n : Nat) [NeZero n] : Clerk n := { recentLeader := ⟨0, Nat.pos_of_neZero n⟩ }

namespace Clerk
variable {n : Nat}

/-- The request record that the clerk `me` sends, the same for every attempt. -/
def args (me reqNo : Nat) : Request → Args
  | .get key => .get { key := key, clientId := me, reqNo := reqNo }
  | .putAppend op key value =>
    .putAppend { key := key, value := value, op := op, clientId := me, reqNo := reqNo }

/-- `Get` or `PutAppend` is called. -/
def begin (ck : Clerk n) (request : Request) : Clerk n :=
  { ck with reqNo := ck.reqNo + 1, request := some request, position := none, pending := none }

/-- The server the clerk tries next. -/
def target (ck : Clerk n) : Fin n := ck.position.getD ck.recentLeader

/-- An attempt failed: the loop moves on. -/
def retry [NeZero n] (ck : Clerk n) : Clerk n :=
  { ck with
    pending := none
    position := match ck.position with
      | none => some ⟨0, Nat.pos_of_neZero n⟩
      | some i => if h : i + 1 < n then some ⟨i + 1, h⟩ else none }

/-- An attempt succeeded: the call of the clerk returns. -/
def done (ck : Clerk n) : Clerk n :=
  { ck with recentLeader := ck.target, request := none, position := none, pending := none }

end Clerk

/-! ### What the server computes -/

/-- The arguments of a request, as the clerk's caller gave them. -/
def Args.request : Args → Request
  | .get args => .get args.key
  | .putAppend args => .putAppend args.op args.key args.value

@[simp] theorem Clerk.args_request (me reqNo : Nat) (r : Request) :
    (Clerk.args me reqNo r).request = r := by
  cases r <;> rfl

@[simp] theorem Clerk.args_clientId (me reqNo : Nat) (r : Request) :
    (Clerk.args me reqNo r).clientId = me := by
  cases r <;> rfl

@[simp] theorem Clerk.args_reqNo (me reqNo : Nat) (r : Request) :
    (Clerk.args me reqNo r).reqNo = reqNo := by
  cases r <;> rfl

/-- The command that carries a request: its ids are those of the request. -/
def Args.op (args : Args) : Op := { arg := args, clientId := args.clientId, reqNo := args.reqNo }

namespace KVServer

/-- The handler of a request. -/
def serve (kv : KVServer) (isLeader : Bool) : Args → Entered
  | .get args => kv.get isLeader args
  | .putAppend args => kv.putAppend isLeader args

/-- The same handler when it is woken. -/
def serveWoken (kv : KVServer) (leads : Bool) : Args → Option Reply
  | .get args => kv.getWoken leads args
  | .putAppend args => kv.putAppendWoken leads args

/-- The value that a successful reply carries. -/
def answer (kv : KVServer) : Request → String
  | .get key => kv.kvMap key
  | .putAppend _ _ _ => ""

/-- A handler that is entered fails, answers from the table, or starts its command. -/
theorem serve_cases (kv : KVServer) (isLeader : Bool) (args : Args) :
    kv.serve isLeader args = .reply {} ∨
    (args.reqNo ≤ kv.completed args.clientId ∧
      kv.serve isLeader args = .reply ⟨true, kv.answer args.request⟩) ∨
    kv.serve isLeader args = .start args.op := by
  have henter : ∀ value op, kv.enter isLeader args.clientId args.reqNo value op = .reply {} ∨
      (args.reqNo ≤ kv.completed args.clientId ∧
        kv.enter isLeader args.clientId args.reqNo value op = .reply ⟨true, value⟩) ∨
      kv.enter isLeader args.clientId args.reqNo value op = .start op := by
    intro value op
    unfold enter
    split
    · exact .inl rfl
    · split
      · exact .inr (.inl ⟨by assumption, rfl⟩)
      · exact .inr (.inr rfl)
  cases args with
  | get args => exact henter _ _
  | putAppend args => exact henter _ _

/-- A handler that is woken waits, fails, or answers once its command is the last one of
its client. -/
theorem serveWoken_cases {kv : KVServer} {leads : Bool} {args : Args} {reply : Reply}
    (h : kv.serveWoken leads args = some reply) :
    reply = {} ∨ (args.reqNo ≤ kv.completed args.clientId ∧
      reply = ⟨true, kv.answer args.request⟩) := by
  have hwake : ∀ value, kv.wake leads args.clientId args.reqNo value = some reply →
      reply = {} ∨ (args.reqNo ≤ kv.completed args.clientId ∧ reply = ⟨true, value⟩) := by
    intro value h
    unfold wake at h
    split at h
    · exact .inl (Option.some.inj h).symm
    · split at h
      · rename_i hpool
        refine .inr ⟨?_, (Option.some.inj h).symm⟩
        rw [completed, hpool]
        exact Nat.le_refl _
      · cases h
  cases args with
  | get args => exact hwake _ h
  | putAppend args => exact hwake _ h

/-- The table entry of a client after a command: it only grows. -/
theorem completed_applyCommand (kv : KVServer) (msg : Op) (i c : Nat) :
    (kv.applyCommand msg i).completed c =
      if msg.clientId = c then max (kv.completed c) msg.reqNo else kv.completed c := by
  unfold applyCommand
  by_cases hc : msg.clientId = c
  · subst hc
    rw [if_pos rfl]
    split
    · simp only [completed, Function.update_self, Option.getD_some]
      exact (Nat.max_eq_right (Nat.le_of_lt ‹_›)).symm
    · exact (Nat.max_eq_left (Nat.not_lt.mp ‹_›)).symm
  · rw [if_neg hc]
    split
    · simp only [completed, Function.update_of_ne (Ne.symm hc)]
    · rfl

theorem kvMap_applyCommand (kv : KVServer) (msg : Op) (i : Nat) :
    (kv.applyCommand msg i).kvMap =
      if kv.completed msg.clientId < msg.reqNo then write kv.kvMap msg.arg else kv.kvMap := by
  unfold applyCommand
  split <;> rfl

theorem commitedId_applyCommand (kv : KVServer) (msg : Op) (i : Nat) :
    (kv.applyCommand msg i).commitedId = max kv.commitedId i := by
  unfold applyCommand
  split <;> rfl

end KVServer
end RaftLabs.KVRaft
