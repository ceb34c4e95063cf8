import RaftLabs.KVRaft.Invariant

/-! Snapshots and restarts of a key/value server.

Raft is taken for what it delivers: the commands of the log in order, and between them any
snapshots that servers have encoded, at whatever time. A snapshot from another server is on disk
before the service hears of it, and it may never hear of it: a server that stops restarts from the
disk, and commands are delivered from just above the snapshot there. -/
namespace RaftLabs.KVRaft
open Lib

/-- A server and what its Raft keeps for it: the snapshot on disk with its index, and the index of
the last message that was delivered. -/
structure Replica where
  kv : KVServer := {}
  lastIncludedIndex : Nat := 0
  saved : Option KVServer := none
  delivered : Nat := 0

namespace Replica

/-- Raft's `Snapshot(index, data)`. -/
def saveSnapshot (r : Replica) (index : Nat) (data : KVServer) : Replica :=
  if index < r.lastIncludedIndex then r
  else { r with lastIncludedIndex := index, saved := some data }

/-- `ReadSnapshot`, which passes the snapshot back to Raft. -/
def readSnapshot (r : Replica) : Option KVServer → Replica
  | none => r
  | some data => { r with kv := r.kv.readSnapshot (some data) }.saveSnapshot data.commitedId data

/-- `applyLog` receives a command. -/
def command (r : Replica) (op : Op) : Replica :=
  { r with kv := r.kv.applyCommand op (r.delivered + 1), delivered := r.delivered + 1 }

/-- `applyLog` receives a snapshot. -/
def message (r : Replica) (snapshotIndex : Nat) (data : KVServer) : Replica :=
  let r := { r with delivered := max r.delivered snapshotIndex }
  if r.kv.commitedId < snapshotIndex then r.readSnapshot (some data) else r

/-- `Snapshot` of the service. -/
def snapshot (r : Replica) : Replica := r.saveSnapshot r.kv.commitedId r.kv

/-- `InstallSnapshot` of a snapshot that is newer than the one on disk. -/
def install (r : Replica) (index : Nat) (data : KVServer) : Replica :=
  { r with lastIncludedIndex := index, saved := some data }

/-- `StartKVServer` on what is on disk. -/
def restart (r : Replica) : Replica :=
  { r with kv := {}, delivered := r.lastIncludedIndex }.readSnapshot r.saved

end Replica

/-- The agreed log, the servers, and the snapshots that servers have encoded, with the index they
were encoded at. -/
structure Recovery where
  log : List Op
  replicas : Nat → Replica
  encoded : List (Nat × KVServer)

namespace Recovery

def initial : Recovery where
  log := []
  replicas := fun _ => {}
  encoded := []

def setReplica (w : Recovery) (s : Nat) (r : Replica) : Recovery :=
  { w with replicas := Function.update w.replicas s r }

inductive Action where
  | append (op : Op)
  | command (s : Nat)
  | snapshot (s : Nat)
  | install (s j : Nat)
  | message (s j : Nat)
  | restart (s : Nat)

def step (w : Recovery) : Action → Option Recovery
  | .append op => some { w with log := w.log ++ [op] }
  | .command s =>
    (w.log[(w.replicas s).delivered]?).map fun op => w.setReplica s ((w.replicas s).command op)
  | .snapshot s =>
    let kv := (w.replicas s).kv
    some { w.setReplica s (w.replicas s).snapshot with
      encoded := w.encoded ++ [(kv.commitedId, kv)] }
  | .install s j =>
    (w.encoded[j]?).bind fun snap =>
      if (w.replicas s).lastIncludedIndex < snap.1 then
        some (w.setReplica s ((w.replicas s).install snap.1 snap.2))
      else none
  | .message s j =>
    (w.encoded[j]?).map fun snap =>
      w.setReplica s ((w.replicas s).message snap.1 snap.2)
  | .restart s => some (w.setReplica s (w.replicas s).restart)

/-- Servers that apply a log, take and exchange snapshots, stop and restart. -/
def system : System Recovery Action where
  init := initial
  step := step

end Recovery

/-! ### What a server keeps -/

/-- A state encoded at `index`: what the first `index` commands leave. -/
def Encodes (log : List Op) (index : Nat) (data : KVServer) : Prop :=
  IsReplay log data ∧ data.commitedId = index

theorem Encodes.mono {log log' : List Op} {index : Nat} {data : KVServer}
    (h : Encodes log index data) (hl : log <+: log') : Encodes log' index data :=
  ⟨h.1.mono hl, h.2⟩

/-- The service stands where delivery stands, and what is on disk was encoded at its index. -/
structure Replica.Sound (log : List Op) (r : Replica) : Prop where
  service : Encodes log r.delivered r.kv
  disk : ∀ data, r.saved = some data → Encodes log r.lastIncludedIndex data
  empty : r.saved = none → r.lastIncludedIndex = 0

namespace Replica.Sound
variable {log log' : List Op} {r : Replica} {index : Nat} {data : KVServer}

theorem start (log : List Op) : Replica.Sound log {} where
  service := ⟨isReplay_empty log, rfl⟩
  disk _ h := nomatch h
  empty _ := rfl

theorem mono (h : r.Sound log) (hl : log <+: log') : r.Sound log' where
  service := h.service.mono hl
  disk data hdata := (h.disk data hdata).mono hl
  empty := h.empty

theorem install (h : r.Sound log) (hdata : Encodes log index data) :
    (r.install index data).Sound log where
  service := h.service
  disk data' heq := by
    cases heq
    exact hdata
  empty := nofun

theorem saveSnapshot (h : r.Sound log) (hdata : Encodes log index data) :
    (r.saveSnapshot index data).Sound log := by
  unfold Replica.saveSnapshot
  split
  · exact h
  · exact h.install hdata

theorem command (h : r.Sound log) {op : Op} (hop : log[r.delivered]? = some op) :
    (r.command op).Sound log where
  service := by
    obtain ⟨hreplay, hid⟩ := h.service
    rw [← hid] at hop
    refine ⟨?_, ?_⟩
    · show IsReplay log (r.kv.applyCommand op (r.delivered + 1))
      rw [← hid]
      exact hreplay.next hop
    · show (r.kv.applyCommand op (r.delivered + 1)).commitedId = r.delivered + 1
      rw [KVServer.commitedId_applyCommand, hid]
      omega
  disk := h.disk
  empty := h.empty

theorem snapshot (h : r.Sound log) : r.snapshot.Sound log :=
  h.saveSnapshot ⟨h.service.1, rfl⟩

/-- The service takes over a snapshot, at the index it was encoded at. -/
theorem readSnapshot (hdisk : ∀ data, r.saved = some data → Encodes log r.lastIncludedIndex data)
    (hempty : r.saved = none → r.lastIncludedIndex = 0) (hdata : Encodes log index data)
    (hindex : r.delivered = index) : (r.readSnapshot (some data)).Sound log := by
  have hread : Replica.Sound log { r with kv := data } :=
    ⟨hindex ▸ hdata, hdisk, hempty⟩
  exact hread.saveSnapshot ⟨hdata.1, rfl⟩

/-- A message changes the service only when it is ahead of it. -/
theorem message (h : r.Sound log) (hdata : Encodes log index data) :
    (r.message index data).Sound log := by
  have hid := h.service.2
  simp only [Replica.message]
  split
  · rename_i hlt
    refine readSnapshot h.disk h.empty hdata ?_
    show max r.delivered index = index
    omega
  · rename_i hle
    have hmax : max r.delivered index = r.delivered := by omega
    rw [hmax]
    exact h

/-- A restart resumes at the snapshot on disk. -/
theorem restart (h : r.Sound log) : r.restart.Sound log := by
  unfold Replica.restart
  cases hsaved : r.saved with
  | none =>
    refine ⟨?_, nofun, fun _ => h.empty hsaved⟩
    show Encodes log r.lastIncludedIndex {}
    rw [h.empty hsaved]
    exact ⟨isReplay_empty log, rfl⟩
  | some data =>
    exact readSnapshot (fun data' heq => h.disk data' (hsaved.trans heq)) nofun
      (h.disk data hsaved) rfl

end Replica.Sound

/-! ### Every run -/

structure Recovery.Sound (w : Recovery) : Prop where
  replicas : ∀ s, (w.replicas s).Sound w.log
  encoded : ∀ snap ∈ w.encoded, Encodes w.log snap.1 snap.2

namespace Recovery.Sound
variable {w w' : Recovery}

theorem setReplica (h : w.Sound) {s : Nat} {r : Replica} (hr : r.Sound w.log) :
    (w.setReplica s r).Sound where
  replicas := (Function.forall_update_iff w.replicas fun _ r => r.Sound w.log).mpr
    ⟨hr, fun s' _ => h.replicas s'⟩
  encoded := h.encoded

theorem step {a : Recovery.Action} (h : w.Sound) (hstep : Recovery.system.step w a = some w') :
    w'.Sound := by
  cases a with
  | append op =>
    cases hstep
    have hl : w.log <+: w.log ++ [op] := List.prefix_append _ _
    exact ⟨fun s => (h.replicas s).mono hl, fun snap hsnap => (h.encoded snap hsnap).mono hl⟩
  | command s =>
    obtain ⟨op, hop, rfl⟩ := Option.map_eq_some_iff.mp hstep
    exact h.setReplica ((h.replicas s).command hop)
  | snapshot s =>
    cases hstep
    refine ⟨(h.setReplica (h.replicas s).snapshot).replicas, fun snap hsnap => ?_⟩
    rcases List.mem_append.mp hsnap with hold | hnew
    · exact h.encoded snap hold
    · rw [List.mem_singleton.mp hnew]
      exact ⟨(h.replicas s).service.1, rfl⟩
  | install s j =>
    obtain ⟨snap, hsnap, hif⟩ := Option.bind_eq_some_iff.mp hstep
    split at hif <;> cases hif
    exact h.setReplica ((h.replicas s).install (h.encoded snap (List.mem_of_getElem? hsnap)))
  | message s j =>
    obtain ⟨snap, hsnap, rfl⟩ := Option.map_eq_some_iff.mp hstep
    exact h.setReplica ((h.replicas s).message (h.encoded snap (List.mem_of_getElem? hsnap)))
  | restart s =>
    cases hstep
    exact h.setReplica (h.replicas s).restart

end Recovery.Sound

theorem recovery_sound {w : Recovery} (h : Recovery.system.Reach System.anyStep w) : w.Sound :=
  h.invariant ⟨fun _ => .start [], nofun⟩ fun _ _ _ _ hsound _ hstep => hsound.step hstep

/-- A replay is the replay of as many commands as it has counted. -/
theorem IsReplay.eq_take {log : List Op} {kv : KVServer} (h : IsReplay log kv) :
    kv.commitedId ≤ log.length ∧ kv = replay (log.take kv.commitedId) := by
  obtain ⟨p, ⟨rest, rfl⟩, rfl⟩ := h
  rw [commitedId_replay, List.take_left]
  exact ⟨by simp, rfl⟩

/-- **Snapshots and restarts lose nothing.** However a server got to its state, by commands, by its
own snapshots and those of others, delivered in time or late, and by restarts from its disk, it is
the state that the first `CommitedId` commands of the log leave. -/
theorem server_eq_replay {w : Recovery} (h : Recovery.system.Reach System.anyStep w) (s : Nat) :
    (w.replicas s).kv.commitedId ≤ w.log.length ∧
      (w.replicas s).kv = replay (w.log.take (w.replicas s).kv.commitedId) :=
  ((recovery_sound h).replicas s).service.1.eq_take

/-- Server 1 has a snapshot of server 0 on disk and restarts before it is delivered; then the
message comes, too late. -/
def lateMessage : List Recovery.Action :=
  [.append (Clerk.args 1 1 (.putAppend .put "k" "a")).op,
   .append (Clerk.args 1 2 (.putAppend .append "k" "b")).op,
   .append (Clerk.args 1 2 (.putAppend .append "k" "b")).op,
   .append (Clerk.args 2 1 (.putAppend .append "k" "c")).op,
   .command 0, .command 0, .snapshot 0, .command 1, .install 1 0, .restart 1, .command 1, .command 1,
   .message 1 0, .snapshot 1, .restart 1]

theorem lateMessage_runs : ((Recovery.system.run Recovery.initial lateMessage).map fun w =>
    decide ((w.replicas 1).kv.commitedId = 4 ∧ (w.replicas 1).kv.kvMap "k" = "abc")) =
      some true := by
  decide +kernel

theorem server_eq_replay_lateMessage : ∃ w,
    Recovery.system.run Recovery.initial lateMessage = some w ∧
      (w.replicas 1).kv.kvMap "k" = "abc" ∧ (w.replicas 1).kv = replay (w.log.take 4) := by
  obtain ⟨w, hrun, hw⟩ := Option.map_eq_some_iff.mp lateMessage_runs
  obtain ⟨hid, hmap⟩ := of_decide_eq_true hw
  have hreplay := (server_eq_replay (System.reach_run .init (fun _ _ => trivial) _ hrun) 1).2
  rw [hid] at hreplay
  exact ⟨w, hrun, hmap, hreplay⟩

end RaftLabs.KVRaft
