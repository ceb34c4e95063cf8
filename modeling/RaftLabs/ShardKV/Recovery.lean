import RaftLabs.ShardKV.Invariant

/-! Snapshots, garbage collection and restarts of the servers of one group.

Raft is taken for what it delivers: the commands of the group's log in order, and between them any
snapshots that servers of the group have encoded, at whatever time. A snapshot from another server
is on disk before the service hears of it, and it may never hear of it. What `sayHello` hears from
other groups is arbitrary, and so is when it hears it, so docks are dropped at different times at
different servers; a snapshot carries over what its encoder had left. The configurations that
`updateConfig` gets from the controller are arbitrary here as well. -/
namespace RaftLabs.ShardKV
open Lib ShardCtrler

/-- A server and what its Raft keeps for it: the snapshot on disk with its index, and the index of
the last message that was delivered. -/
structure Node where
  skv : ShardKV
  lastIncludedIndex : Nat := 0
  saved : Option ShardKV := none
  delivered : Nat := 0

namespace Node

/-- Raft's `Snapshot(index, data)`. -/
def saveSnapshot (node : Node) (index : Nat) (data : ShardKV) : Node :=
  if index < node.lastIncludedIndex then node
  else { node with lastIncludedIndex := index, saved := some data }

/-- `ReadSnapshot`, which passes the snapshot back to Raft. -/
def readSnapshot (node : Node) : Option ShardKV → Node
  | none => node
  | some data =>
    { node with skv := node.skv.readSnapshot (some data) }.saveSnapshot data.commitedId data

/-- `applyLog` receives a command. -/
def command (node : Node) (op : Op) : Node :=
  { node with
    skv := node.skv.applyCommand op (node.delivered + 1)
    delivered := node.delivered + 1 }

/-- `applyLog` receives a snapshot. -/
def message (node : Node) (snapshotIndex : Nat) (data : ShardKV) : Node :=
  let node := { node with delivered := max node.delivered snapshotIndex }
  if node.skv.commitedId < snapshotIndex then node.readSnapshot (some data) else node

/-- `Snapshot` of the service. -/
def snapshot (node : Node) : Node := node.saveSnapshot node.skv.commitedId node.skv

/-- `InstallSnapshot` of a snapshot that is newer than the one on disk. -/
def install (node : Node) (index : Nat) (data : ShardKV) : Node :=
  { node with lastIncludedIndex := index, saved := some data }

/-- `StartServer` on what is on disk. -/
def restart (node : Node) : Node :=
  { node with skv := startServer node.skv.gid none, delivered := node.lastIncludedIndex }.readSnapshot
    node.saved

end Node

/-- The group's log, its servers, the snapshots that servers have encoded, with the index they were
encoded at, and the commands that `updateConfig` has passed to `Start`. -/
structure Recovery where
  log : List Op
  nodes : Nat → Node
  encoded : List (Nat × ShardKV)
  proposals : List Op

namespace Recovery

def initial (gid : Int) : Recovery where
  log := []
  nodes := fun _ => { skv := startServer gid none }
  encoded := []
  proposals := []

def setNode (w : Recovery) (s : Nat) (node : Node) : Recovery :=
  { w with nodes := Function.update w.nodes s node }

def skv (w : Recovery) (s : Nat) : ShardKV := (w.nodes s).skv

/-- A command gets into the log from elsewhere (`append`) or from the proposals (`commit`). -/
inductive Action where
  | append (op : Op)
  | commit (j : Nat)
  | command (s : Nat)
  | snapshot (s : Nat)
  | install (s j : Nat)
  | message (s j : Nat)
  | restart (s : Nat)
  | heard (s : Nat) (merge order : RangeOrder Int) (gid2ConfigNum : GoMap Int Nat)
  | updateConfig (s : Nat) (isLeader : Bool) (next : Config)

def step (w : Recovery) : Action → Option Recovery
  | .append op => some { w with log := w.log ++ [op] }
  | .commit j => (w.proposals[j]?).map fun op => { w with log := w.log ++ [op] }
  | .command s =>
    (w.log[(w.nodes s).delivered]?).map fun op => w.setNode s ((w.nodes s).command op)
  | .snapshot s =>
    some { w.setNode s (w.nodes s).snapshot with
      encoded := w.encoded ++ [((w.skv s).commitedId, w.skv s)] }
  | .install s j =>
    (w.encoded[j]?).bind fun snap =>
      if (w.nodes s).lastIncludedIndex < snap.1 then
        some (w.setNode s ((w.nodes s).install snap.1 snap.2))
      else none
  | .message s j =>
    (w.encoded[j]?).map fun snap => w.setNode s ((w.nodes s).message snap.1 snap.2)
  | .restart s => some (w.setNode s (w.nodes s).restart)
  | .heard s merge order gid2ConfigNum =>
    some (w.setNode s { w.nodes s with skv := (w.skv s).heard merge order gid2ConfigNum })
  | .updateConfig s isLeader next =>
    ((w.skv s).updateConfig isLeader next).map fun op =>
      { w with proposals := w.proposals ++ [op] }

/-- The servers of group `gid`. -/
def system (gid : Int) : System Recovery Action where
  init := initial gid
  step := step

end Recovery

/-! ### What a server keeps -/

/-- The state after the first `index` commands, up to garbage collection. -/
def StandsAt (gid : Int) (log : List Op) (index : Nat) (skv : ShardKV) : Prop :=
  index ≤ log.length ∧ Agrees (replay gid (log.take index)) skv

namespace StandsAt
variable {gid : Int} {log log' : List Op} {index : Nat} {skv : ShardKV}

theorem zero (gid : Int) (log : List Op) : StandsAt gid log 0 (startServer gid none) :=
  ⟨Nat.zero_le _, Agrees.refl _⟩

theorem gid_eq (h : StandsAt gid log index skv) : skv.gid = gid := by
  rw [h.2.gid, gid_replay]

theorem commitedId_eq (h : StandsAt gid log index skv) : skv.commitedId = index := by
  rw [h.2.commitedId, commitedId_replay, List.length_take_of_le h.1]

theorem mono (h : StandsAt gid log index skv) (hl : log <+: log') :
    StandsAt gid log' index skv := by
  obtain ⟨rest, rfl⟩ := hl
  refine ⟨h.1.trans (by simp), ?_⟩
  rw [List.take_append_of_le_length h.1]
  exact h.2

theorem next (h : StandsAt gid log index skv) {op : Op} (hop : log[index]? = some op) :
    StandsAt gid log (index + 1) (skv.applyCommand op (index + 1)) := by
  have hlt : index < log.length := (List.getElem?_eq_some_iff.mp hop).1
  have hnext : skv.applyCommand op (index + 1) = skv.next op := by
    rw [ShardKV.next, h.commitedId_eq]
  refine ⟨hlt, ?_⟩
  rw [List.take_add_one, hop, Option.toList_some, replay_concat, hnext]
  exact h.2.next op

theorem heard (h : StandsAt gid log index skv) (merge order : RangeOrder Int)
    (nums : GoMap Int Nat) : StandsAt gid log index (skv.heard merge order nums) :=
  ⟨h.1, h.2.heard merge order nums⟩

/-- A server of the group takes over the state as it is. -/
theorem readSnapshot_eq {data : ShardKV} (h : StandsAt gid log index data) (hgid : skv.gid = gid) :
    skv.readSnapshot (some data) = data :=
  readSnapshot_of_gid (h.gid_eq.trans hgid.symm)

end StandsAt

/-- The service stands where delivery stands, and what is on disk was encoded at its index. -/
structure Node.Sound (gid : Int) (log : List Op) (node : Node) : Prop where
  service : StandsAt gid log node.delivered node.skv
  disk : ∀ data, node.saved = some data → StandsAt gid log node.lastIncludedIndex data
  empty : node.saved = none → node.lastIncludedIndex = 0

namespace Node.Sound
variable {gid : Int} {log log' : List Op} {node : Node} {index : Nat} {data : ShardKV}

theorem start (gid : Int) (log : List Op) : Node.Sound gid log { skv := startServer gid none } where
  service := .zero gid log
  disk _ h := nomatch h
  empty _ := rfl

theorem mono (h : node.Sound gid log) (hl : log <+: log') : node.Sound gid log' where
  service := h.service.mono hl
  disk data hdata := (h.disk data hdata).mono hl
  empty := h.empty

theorem install (h : node.Sound gid log) (hdata : StandsAt gid log index data) :
    (node.install index data).Sound gid log where
  service := h.service
  disk data' heq := by
    cases heq
    exact hdata
  empty := nofun

theorem saveSnapshot (h : node.Sound gid log) (hdata : StandsAt gid log index data) :
    (node.saveSnapshot index data).Sound gid log := by
  unfold Node.saveSnapshot
  split
  · exact h
  · exact h.install hdata

theorem command (h : node.Sound gid log) {op : Op} (hop : log[node.delivered]? = some op) :
    (node.command op).Sound gid log where
  service := h.service.next hop
  disk := h.disk
  empty := h.empty

theorem snapshot (h : node.Sound gid log) : node.snapshot.Sound gid log := by
  refine h.saveSnapshot ?_
  rw [h.service.commitedId_eq]
  exact h.service

theorem heard (h : node.Sound gid log) (merge order : RangeOrder Int) (nums : GoMap Int Nat) :
    Node.Sound gid log { node with skv := node.skv.heard merge order nums } where
  service := h.service.heard merge order nums
  disk := h.disk
  empty := h.empty

/-- The service takes over a snapshot, at the index it was encoded at. -/
theorem readSnapshot (hgid : node.skv.gid = gid)
    (hdisk : ∀ data, node.saved = some data → StandsAt gid log node.lastIncludedIndex data)
    (hempty : node.saved = none → node.lastIncludedIndex = 0) (hdata : StandsAt gid log index data)
    (hindex : node.delivered = index) : (node.readSnapshot (some data)).Sound gid log := by
  have hread : Node.Sound gid log { node with skv := data } := ⟨hindex ▸ hdata, hdisk, hempty⟩
  rw [Node.readSnapshot, hdata.readSnapshot_eq hgid, hdata.commitedId_eq]
  exact hread.saveSnapshot hdata

/-- A message changes the service only when it is ahead of it. -/
theorem message (h : node.Sound gid log) (hdata : StandsAt gid log index data) :
    (node.message index data).Sound gid log := by
  have hid := h.service.commitedId_eq
  simp only [Node.message]
  split
  · refine readSnapshot h.service.gid_eq h.disk h.empty hdata ?_
    show max node.delivered index = index
    omega
  · have hmax : max node.delivered index = node.delivered := by omega
    rw [hmax]
    exact h

/-- A restart resumes at the snapshot on disk. -/
theorem restart (h : node.Sound gid log) : node.restart.Sound gid log := by
  have hgid := h.service.gid_eq
  unfold Node.restart
  cases hsaved : node.saved with
  | none =>
    refine ⟨?_, nofun, fun _ => h.empty hsaved⟩
    show StandsAt gid log node.lastIncludedIndex (startServer node.skv.gid none)
    rw [h.empty hsaved, hgid]
    exact .zero gid log
  | some data =>
    exact readSnapshot hgid (fun data' heq => h.disk data' (hsaved.trans heq)) nofun
      (h.disk data hsaved) rfl

end Node.Sound

/-! ### Every run -/

structure Recovery.Sound (gid : Int) (w : Recovery) : Prop where
  nodes : ∀ s, (w.nodes s).Sound gid w.log
  encoded : ∀ snap ∈ w.encoded, StandsAt gid w.log snap.1 snap.2

namespace Recovery.Sound
variable {gid : Int} {w w' : Recovery}

theorem setNode (h : w.Sound gid) {s : Nat} {node : Node} (hnode : node.Sound gid w.log) :
    (w.setNode s node).Sound gid where
  nodes := (Function.forall_update_iff w.nodes fun _ node => node.Sound gid w.log).mpr
    ⟨hnode, fun s' _ => h.nodes s'⟩
  encoded := h.encoded

theorem append (h : w.Sound gid) (op : Op) :
    Recovery.Sound gid { w with log := w.log ++ [op] } where
  nodes s := (h.nodes s).mono (List.prefix_append _ _)
  encoded snap hsnap := (h.encoded snap hsnap).mono (List.prefix_append _ _)

theorem step {a : Recovery.Action} (h : w.Sound gid)
    (hstep : (Recovery.system gid).step w a = some w') : w'.Sound gid := by
  cases a with
  | append op =>
    cases hstep
    exact h.append op
  | commit j =>
    obtain ⟨op, -, rfl⟩ := Option.map_eq_some_iff.mp hstep
    exact h.append op
  | command s =>
    obtain ⟨op, hop, rfl⟩ := Option.map_eq_some_iff.mp hstep
    exact h.setNode ((h.nodes s).command hop)
  | snapshot s =>
    cases hstep
    refine ⟨(h.setNode (h.nodes s).snapshot).nodes, fun snap hsnap => ?_⟩
    rcases List.mem_append.mp hsnap with hold | hnew
    · exact h.encoded snap hold
    · have hservice := (h.nodes s).service
      rw [List.mem_singleton.mp hnew]
      exact hservice.commitedId_eq ▸ hservice
  | install s j =>
    obtain ⟨snap, hsnap, hif⟩ := Option.bind_eq_some_iff.mp hstep
    split at hif <;> cases hif
    exact h.setNode ((h.nodes s).install (h.encoded snap (List.mem_of_getElem? hsnap)))
  | message s j =>
    obtain ⟨snap, hsnap, rfl⟩ := Option.map_eq_some_iff.mp hstep
    exact h.setNode ((h.nodes s).message (h.encoded snap (List.mem_of_getElem? hsnap)))
  | restart s =>
    cases hstep
    exact h.setNode (h.nodes s).restart
  | heard s merge order nums =>
    cases hstep
    exact h.setNode ((h.nodes s).heard merge order nums)
  | updateConfig s isLeader next =>
    obtain ⟨op, -, rfl⟩ := Option.map_eq_some_iff.mp hstep
    exact ⟨h.nodes, h.encoded⟩

end Recovery.Sound

theorem recovery_sound {gid : Int} {ok : Recovery → Recovery.Action → Prop} {w : Recovery}
    (h : (Recovery.system gid).Reach ok w) : w.Sound gid :=
  h.invariant ⟨fun _ => .start gid [], nofun⟩ fun _ _ _ _ hsound _ hstep => hsound.step hstep

/-- Every server of a group is consistent when the entries of the group's log fit. -/
theorem Recovery.consistent {gid : Int} {ok : Recovery → Recovery.Action → Prop} {w : Recovery}
    (h : (Recovery.system gid).Reach ok w) (hlog : ∀ op ∈ w.log, op.Fits) (s : Nat) :
    Consistent (w.skv s) := by
  obtain ⟨-, hagrees⟩ := ((recovery_sound h).nodes s).service
  refine hagrees.consistent (reached_replay fun op hop => ?_).consistent
  exact hlog op (List.mem_of_mem_take hop)

/-- **Snapshots, restarts and garbage collection lose nothing that is replicated.** However a server
got to its state, by commands, by its own snapshots and those of others, delivered in time or late,
by restarts from its disk, and by dropping docks whenever it liked, it agrees with the fold of the
first `CommitedId` commands of the group's log: it differs from it only by docks it has dropped. -/
theorem server_agrees_with_log {gid : Int} {w : Recovery}
    (h : (Recovery.system gid).Reach System.anyStep w) (s : Nat) :
    (w.skv s).commitedId ≤ w.log.length ∧
      Agrees (replay gid (w.log.take (w.skv s).commitedId)) (w.skv s) := by
  have hservice := ((recovery_sound h).nodes s).service
  rw [← hservice.commitedId_eq] at hservice
  exact hservice

/-- All shards go to one group. -/
def toGroup (n : Nat) (gid : Int) : Config := { num := n, shards := fun _ => gid }

/-- Group 1 takes up the first configuration and leaves all shards to group 2 in the second. Server
0 hears that the other groups are done, drops the dock of the second configuration and takes a
snapshot. Server 1 has this on disk and restarts; then it is told of it, too late. -/
def droppedDock : List Recovery.Action :=
  [.append (.config (toGroup 1 1)),
   .append (.shards ((List.finRange nShards).map fun s =>
     { configNum := 1, shardId := s, kvMap := fun _ => none }) {}),
   .append (.client (Clerk.args 1 1 (.putAppend .put "k" "a"))),
   .append (.config (toGroup 2 2)),
   .command 0, .command 0, .command 0, .command 1, .snapshot 1, .command 0,
   .heard 0 .sorted .sorted (.ofList [(2, 3), (3, 3)]), .snapshot 0,
   .install 1 1, .restart 1, .message 1 1, .message 1 0]

theorem droppedDock_runs : (((Recovery.system 1).run (Recovery.initial 1) droppedDock).map fun w =>
    decide ((w.skv 1).commitedId = 4 ∧ ((w.skv 1).outShardsDock 2).isNone ∧
      ((replay 1 w.log).outShardsDock 2).isSome ∧ w.log.length = 4)) = some true := by
  decide +kernel

theorem server_agrees_with_log_droppedDock : ∃ w,
    (Recovery.system 1).run (Recovery.initial 1) droppedDock = some w ∧
      ((w.skv 1).outShardsDock 2).isNone ∧ ((replay 1 w.log).outShardsDock 2).isSome ∧
      Agrees (replay 1 w.log) (w.skv 1) := by
  obtain ⟨w, hrun, hw⟩ := Option.map_eq_some_iff.mp droppedDock_runs
  obtain ⟨hid, hnone, hsome, hlen⟩ := of_decide_eq_true hw
  have hagrees :=
    (server_agrees_with_log (System.reach_run .init (fun _ _ => trivial) _ hrun) 1).2
  rw [hid, ← hlen, List.take_length] at hagrees
  exact ⟨w, hrun, hnone, hsome, hagrees⟩

end RaftLabs.ShardKV
