import RaftLabs.ShardCtrler.Config

/-! A server of the shard controller: the log it applies and its handlers.

An `Op` holds the one argument record that its `ReqType` selects, and its ids are those of this
record. The four handlers are one: they differ in the operation they start and in that `Query`
reads a configuration when it is woken. A handler is entered, and unless it answers at once it
passes an `Op` to `Start` and waits; what Raft answers is an argument here. -/
namespace RaftLabs.ShardCtrler

/-- The arguments of a request to a server. -/
inductive Args where
  | join (servers : Lib.GoMap Int (List String))
  | leave (gids : List Int)
  | move (shard : Int) (gid : Int)
  | query (num : Int)
deriving DecidableEq

/-- What `applyLog` does for a request: `doQuery` does nothing. -/
def Args.request : Args → Request
  | .join servers => .join servers
  | .leave gids => .leave gids
  | .move shard gid => .move shard gid
  | .query _ => .query

/-- A command in Raft's log. -/
structure Op where
  clientId : Int
  reqNo : Int
  args : Args
deriving DecidableEq

/-- The state of a server. -/
structure Server where
  sc : ShardCtrler := {}
  completedPool : Int → Option Int := fun _ => none
  commitedId : Nat := 0

/-- The replies of the four handlers; only a `QueryReply` has a configuration. -/
structure Reply where
  wrongLeader : Bool := false
  config : Config := {}

/-- What a handler does when it is entered: answer, or pass an operation to `Start`. -/
inductive Entered where
  | reply (reply : Reply)
  | start (op : Op)

/-- What a handler does when it is woken. -/
inductive Woken where
  | wait
  | reply (reply : Reply)
  | panic

namespace Server

/-- `CompletedPool[clientId]`, zero when there is none. -/
def completed (srv : Server) (clientId : Int) : Int := (srv.completedPool clientId).getD 0

/-- `applyLog` on a command. -/
def applyCommand (srv : Server) (orders : Orders) (msg : Op) (commandIndex : Nat) :
    Option Server :=
  if srv.completed msg.clientId < msg.reqNo then
    (srv.sc.apply orders msg.args.request).map fun sc =>
      { sc := sc
        completedPool := Function.update srv.completedPool msg.clientId (some msg.reqNo)
        commitedId := max srv.commitedId commandIndex }
  else some { srv with commitedId := max srv.commitedId commandIndex }

/-- `Join`, `Leave`, `Move` and `Query` up to the wait. -/
def enter (srv : Server) (isLeader : Bool) (op : Op) : Entered :=
  if !isLeader then .reply { wrongLeader := true }
  else if op.reqNo ≤ srv.completed op.clientId then .reply {}
  else .start op

/-- The configuration that `Query` reads; `none` is an index out of range. -/
def queryConfig (sc : ShardCtrler) (num : Int) : Option Config :=
  if num = -1 ∨ sc.configs.length ≤ num then sc.configs.getLast?
  else if 0 ≤ num then sc.configs[num.toNat]?
  else none

/-- The configuration in the reply to a completed request. -/
def answer (srv : Server) : Args → Option Config
  | .query num => queryConfig srv.sc num
  | _ => some {}

/-- One round of the wait: `leads` is that the server still leads in the term it started in. -/
def wake (srv : Server) (leads : Bool) (op : Op) : Woken :=
  if !leads then .reply { wrongLeader := true }
  else if srv.completedPool op.clientId = some op.reqNo then
    match srv.answer op.args with
    | some config => .reply { config := config }
    | none => .panic
  else .wait

end Server
end RaftLabs.ShardCtrler
