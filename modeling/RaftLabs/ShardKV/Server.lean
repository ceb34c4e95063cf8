import RaftLabs.ShardCtrler.Config

/-! One server of the sharded key/value service.

Maps whose iteration order cannot matter, because every key is treated on its own, are
functions to `Option`; `Shards`, which is only read with `false` as default, is a predicate.
An `Op` holds the one argument record that its `OpType` selects, and `ClientId` and `ReqNo`
are those of this record. What Raft answers (`isLeader`) is an argument of the handlers. -/
namespace RaftLabs.ShardKV
open Lib ShardCtrler

/-- The shard of a key: its first byte modulo the number of shards. -/
def key2shard (key : String) : Shard :=
  ⟨(key.toUTF8.data[0]?).elim 0 UInt8.toNat % nShards, Nat.mod_lt _ (by decide)⟩

inductive Err where
  | unset
  | ok
  | noKey
  | wrongGroup
  | wrongLeader
  | notReady
  | timeOut
deriving DecidableEq, Repr

inductive PutAppendKind where
  | put
  | append
deriving DecidableEq, Repr

structure PutAppendArgs where
  key : String
  value : String
  op : PutAppendKind
  shardId : Shard
  clientId : Nat
  reqNo : Nat
deriving DecidableEq, Repr

structure GetArgs where
  key : String
  shardId : Shard
  clientId : Nat
  reqNo : Nat
deriving DecidableEq, Repr

/-- The arguments of a client's request. -/
inductive Args where
  | get (args : GetArgs)
  | putAppend (args : PutAppendArgs)
deriving DecidableEq, Repr

namespace Args

def key : Args → String
  | .get args => args.key
  | .putAppend args => args.key

def shardId : Args → Shard
  | .get args => args.shardId
  | .putAppend args => args.shardId

def clientId : Args → Nat
  | .get args => args.clientId
  | .putAppend args => args.clientId

def reqNo : Args → Nat
  | .get args => args.reqNo
  | .putAppend args => args.reqNo

end Args

structure Result where
  err : Err := .unset
  value : String := ""
  clientId : Nat := 0
  reqNo : Nat := 0
deriving DecidableEq, Repr

/-- `GetReply` and `PutAppendReply`; the latter has no value. -/
structure Reply where
  err : Err := .unset
  value : String := ""
deriving DecidableEq, Repr

/-- A shard on its way from one group to another. -/
structure ShiftShard where
  configNum : Nat
  shardId : Shard
  kvMap : String → Option String

/-- The table of the clients' last requests. -/
structure ClientInfo where
  completedReq : Nat → Option Nat := fun _ => none
  completedResult : Nat → Option Result := fun _ => none

namespace ClientInfo

/-- `CompletedReq[clientId]`, zero when there is none. -/
def req (info : ClientInfo) (clientId : Nat) : Nat := (info.completedReq clientId).getD 0

def result (info : ClientInfo) (clientId : Nat) : Result :=
  (info.completedResult clientId).getD {}

/-- The request is above the client's last one, or is this one and has failed so far. -/
def isNew (info : ClientInfo) (clientId reqNo : Nat) : Bool :=
  info.req clientId < reqNo ∨ (reqNo = info.req clientId ∧ (info.result clientId).err ≠ .ok)

def merge (cInfo info : ClientInfo) : ClientInfo where
  completedReq clientId :=
    match info.completedReq clientId with
    | none => cInfo.completedReq clientId
    | some req => if cInfo.req clientId < req then some req else cInfo.completedReq clientId
  completedResult clientId :=
    match info.completedReq clientId with
    | none => cInfo.completedResult clientId
    | some req =>
      if cInfo.req clientId < req then some (info.result clientId)
      else if req = cInfo.req clientId ∧ (cInfo.result clientId).err ≠ .ok then
        some (info.result clientId)
      else cInfo.completedResult clientId

end ClientInfo

/-- A command in a group's log. -/
inductive Op where
  | client (arg : Args)
  | config (config : Config)
  | shards (shiftShards : List ShiftShard) (clientInfo : ClientInfo)

end RaftLabs.ShardKV

namespace RaftLabs
open Lib ShardCtrler ShardKV

structure ShardKV where
  gid : Int
  commitedId : Nat := 0
  lastConfig : Config := {}
  curConfig : Config := {}
  shards : Shard → Bool := fun _ => false
  shardKVMap : String → Option String := fun _ => none
  clientInfo : ClientInfo := {}
  gid2UnCompletedConfigNum : GoMap Int Nat := .empty
  outShardsDock : Nat → Option (Shard → Option ShiftShard) := fun _ => none
  config2ClientInfo : Nat → Option ClientInfo := fun _ => none

end RaftLabs

namespace RaftLabs.ShardKV
open Lib ShardCtrler

/-! ### Configurations -/

/-- The second result of `isMigrateFinished`: the shards still missing. -/
def unFinishedShards (skv : ShardKV) : List Shard :=
  (List.finRange nShards).filter fun s => skv.curConfig.shards s = skv.gid ∧ skv.shards s = false

/-- The first result. -/
def isMigrateFinished (skv : ShardKV) : Bool := skv.unFinishedShards.isEmpty

/-- `compareConfig`: the shards that leave, and those that stay. -/
def outShards (skv : ShardKV) (nextConfig : Config) (s : Shard) : Bool :=
  skv.shards s && skv.gid != nextConfig.shards s

def keepShards (skv : ShardKV) (nextConfig : Config) (s : Shard) : Bool :=
  skv.shards s && skv.gid == nextConfig.shards s

/-- `makeOutShards`: what the dock holds for `nextConfig`. -/
def makeOutShards (skv : ShardKV) (nextConfig : Config) (s : Shard) : Option ShiftShard :=
  if skv.outShards nextConfig s then
    some { configNum := nextConfig.num
           shardId := s
           kvMap := fun key => if key2shard key = s then skv.shardKVMap key else none }
  else none

def doUpdateConfig (skv : ShardKV) (nextConfig : Config) : ShardKV :=
  if nextConfig.num ≤ skv.curConfig.num then skv
  else if !skv.isMigrateFinished then skv
  else
    { skv with
      config2ClientInfo := Function.update skv.config2ClientInfo nextConfig.num skv.clientInfo
      outShardsDock :=
        Function.update skv.outShardsDock nextConfig.num (some (skv.makeOutShards nextConfig))
      shards := skv.keepShards nextConfig
      shardKVMap := fun key =>
        if skv.keepShards nextConfig (key2shard key) then skv.shardKVMap key else none
      lastConfig := skv.curConfig
      curConfig := nextConfig }

/-- The configuration the server can take up next, with which `updateConfig` proposes a CONFIG
entry: `next` answers `Query(CurConfig.Num + 1)`. -/
def updateConfig (skv : ShardKV) (isLeader : Bool) (next : Config) : Option Op :=
  if isLeader ∧ skv.isMigrateFinished ∧ skv.curConfig.num < next.num then some (.config next)
  else none

/-! ### Moving shards -/

/-- Whether `acceptShards` takes a shard. -/
def accepts (skv : ShardKV) (shift : ShiftShard) : Bool :=
  shift.configNum = skv.curConfig.num ∧ skv.curConfig.shards shift.shardId = skv.gid ∧
    skv.shards shift.shardId = false

/-- One round of the loop of `acceptShards`. -/
def acceptShard (skv : ShardKV) (shift : ShiftShard) : ShardKV :=
  if skv.accepts shift then
    { skv with
      shardKVMap := fun key => (shift.kvMap key).or (skv.shardKVMap key)
      shards := Function.update skv.shards shift.shardId true }
  else skv

def acceptShards (skv : ShardKV) (shiftShards : List ShiftShard) (clientInfo : ClientInfo) :
    ShardKV :=
  let skv := shiftShards.foldl acceptShard skv
  { skv with clientInfo := skv.clientInfo.merge clientInfo }

/-- A request for shards, to the group that had them in the last configuration. -/
structure Pull where
  gid : Int
  target : Int
  configNum : Nat
  shardIds : List Shard

/-- `pullShards`: the entry for the first configuration, or a request to every group that is to
give shards away and has servers in the last configuration. -/
def pullShards (skv : ShardKV) : Op ⊕ List Pull :=
  if skv.lastConfig.shards 0 = 0 then
    .inl (.shards ((List.finRange nShards).map fun s =>
      { configNum := skv.curConfig.num, shardId := s, kvMap := fun _ => none }) {})
  else
    .inr (((skv.unFinishedShards.map skv.lastConfig.shards).dedup.filter
        fun gid => skv.lastConfig.groups.getD gid [] ≠ []).map fun gid =>
      { gid := skv.gid
        target := gid
        configNum := skv.curConfig.num
        shardIds := skv.unFinishedShards.filter (skv.lastConfig.shards · = gid) })

/-- `ShardDock`: the entry that the requesting server will propose, `none` when the reply says
that the shards are not there. -/
def shardDock (skv : ShardKV) (configNum : Nat) (shardIds : List Shard) : Option Op :=
  match skv.outShardsDock configNum with
  | none => none
  | some dock =>
    if shardIds.filterMap dock |>.isEmpty then none
    else some (.shards (shardIds.filterMap dock) ((skv.config2ClientInfo configNum).getD {}))

/-! ### Garbage collection -/

/-- The number `Hello` answers with. -/
def hello (skv : ShardKV) : Nat :=
  if skv.isMigrateFinished then skv.curConfig.num + 1 else skv.curConfig.num

/-- The threshold of `clean`; zero stands for "none yet". -/
def lowestConfigNum (order : RangeOrder Int) (nums : GoMap Int Nat) : Nat :=
  (order.list nums.keys).foldl
    (fun lowest gid =>
      if lowest = 0 then nums.getD gid 0 else min lowest (nums.getD gid 0)) 0

def clean (skv : ShardKV) (order : RangeOrder Int) : ShardKV :=
  let lowest := lowestConfigNum order skv.gid2UnCompletedConfigNum
  { skv with
    config2ClientInfo := fun n => if n < lowest then none else skv.config2ClientInfo n
    outShardsDock := fun n => if n < lowest then none else skv.outShardsDock n }

/-- The end of a round of `sayHello`: what was heard is merged, and `clean` runs once more than
one group is known. -/
def heard (skv : ShardKV) (merge order : RangeOrder Int) (gid2ConfigNum : GoMap Int Nat) :
    ShardKV :=
  let nums := (merge.list gid2ConfigNum.keys).foldl
    (fun nums gid => nums.set gid (max (nums.getD gid 0) (gid2ConfigNum.getD gid 0)))
    skv.gid2UnCompletedConfigNum
  let skv := { skv with gid2UnCompletedConfigNum := nums }
  if 1 < nums.len then skv.clean order else skv

/-! ### Client operations -/

/-- What a handler does when it is entered: answer, or pass an operation to `Start`. -/
inductive Entered where
  | reply (reply : Reply)
  | start (op : Op)

/-- The part of `Get` and `PutAppend` before the wait; `duplicate` is the reply to a request
that is completed. -/
def enter (skv : ShardKV) (isLeader : Bool) (key : String) (clientId reqNo : Nat)
    (duplicate : Reply) (op : Op) : Entered :=
  if !isLeader then .reply { err := .wrongLeader }
  else if skv.curConfig.shards (key2shard key) ≠ skv.gid then .reply { err := .wrongGroup }
  else if !skv.clientInfo.isNew clientId reqNo then .reply duplicate
  else .start op

def get (skv : ShardKV) (isLeader : Bool) (args : GetArgs) : Entered :=
  skv.enter isLeader args.key args.clientId args.reqNo
    (if !skv.shards (key2shard args.key) then { err := .notReady }
      else { err := .ok, value := (skv.shardKVMap args.key).getD "" })
    (.client (.get args))

def putAppend (skv : ShardKV) (isLeader : Bool) (args : PutAppendArgs) : Entered :=
  skv.enter isLeader args.key args.clientId args.reqNo { err := .ok }
    (.client (.putAppend args))

/-- The handler of a request. -/
def serve (skv : ShardKV) (isLeader : Bool) : Args → Entered
  | .get args => skv.get isLeader args
  | .putAppend args => skv.putAppend isLeader args

/-- The end of a handler that got a result from its channel. -/
def received (args : Args) (result : Result) : Reply :=
  if result.clientId = args.clientId ∧ result.reqNo = args.reqNo then
    match args with
    | .get _ => { err := result.err, value := result.value }
    | .putAppend _ => { err := result.err }
  else {}

/-- The error that `doOperation` finds. -/
def opErr (skv : ShardKV) (shardId : Shard) : Err :=
  if skv.curConfig.shards shardId ≠ skv.gid then .wrongGroup
  else if !skv.shards shardId then .notReady
  else .ok

/-- What an operation without error writes. -/
def write (kvMap : String → Option String) : Args → String → Option String
  | .get _ => kvMap
  | .putAppend args =>
    match args.op with
    | .put => Function.update kvMap args.key (some args.value)
    | .append => Function.update kvMap args.key (some ((kvMap args.key).getD "" ++ args.value))

/-- What an operation without error returns. -/
def readValue (kvMap : String → Option String) : Args → String
  | .get args => (kvMap args.key).getD ""
  | .putAppend _ => ""

/-- The result that `doOperation` sends to the channel of the client. -/
def opResult (skv : ShardKV) (args : Args) : Result where
  err := skv.opErr args.shardId
  value := if skv.opErr args.shardId = .ok then readValue skv.shardKVMap args else ""
  clientId := args.clientId
  reqNo := args.reqNo

def doOperation (skv : ShardKV) (args : Args) : ShardKV :=
  { skv with
    shardKVMap :=
      if skv.opErr args.shardId = .ok then write skv.shardKVMap args else skv.shardKVMap
    clientInfo :=
      { completedReq :=
          Function.update skv.clientInfo.completedReq args.clientId (some args.reqNo)
        completedResult := Function.update skv.clientInfo.completedResult args.clientId
          (some { err := skv.opErr args.shardId }) } }

/-- The `switch` of `applyLog`. -/
def applyOp (skv : ShardKV) : Op → ShardKV
  | .client args =>
    if skv.clientInfo.isNew args.clientId args.reqNo then skv.doOperation args else skv
  | .config config => skv.doUpdateConfig config
  | .shards shiftShards clientInfo => skv.acceptShards shiftShards clientInfo

/-- `applyLog` on a command. -/
def applyCommand (skv : ShardKV) (op : Op) (commandIndex : Nat) : ShardKV :=
  { skv.applyOp op with commitedId := max skv.commitedId commandIndex }

/-- The result that `applyLog` sends on for a command, if any. -/
def applyResult (skv : ShardKV) : Op → Option Result
  | .client args =>
    if skv.clientInfo.isNew args.clientId args.reqNo then some (skv.opResult args) else none
  | _ => none

/-- `ReadSnapshot`; `none` is a persister without a snapshot. -/
def readSnapshot (skv : ShardKV) : Option ShardKV → ShardKV
  | none => skv
  | some data => { data with gid := skv.gid }

/-- `applyLog` on a snapshot that reaches up to `snapshotIndex`. -/
def applySnapshot (skv : ShardKV) (snapshotIndex : Nat) (data : ShardKV) : ShardKV :=
  if skv.commitedId < snapshotIndex then skv.readSnapshot (some data) else skv

/-- `StartServer`: fresh maps, then the persister's snapshot. -/
def startServer (gid : Int) (snapshot : Option ShardKV) : ShardKV :=
  readSnapshot { gid := gid } snapshot

end RaftLabs.ShardKV
