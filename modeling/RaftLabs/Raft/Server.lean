import Mathlib.Data.List.Basic
import Mathlib.Data.List.FinRange
import Mathlib.Data.Fin.Basic

/-! One Raft server: its state, its requests and what its persister holds.

The fields are those of the `Raft` struct that its methods read. Server ids are
indices into `peers`, so `Fin n` for a cluster of `n`; `VotedFor` and `LeaderTerm`
use `none` for the source's `-1`. The timers (`LastReceive`, `ElectionTimeout`),
the condition variables and `dead` decide only *when* a step runs, which the
cluster leaves to the scheduler, so they have no field here. `Persister` holds
the encoded tuple itself: decoding inverts encoding. -/
namespace RaftLabs.Raft

/-- Snapshot data, opaque to Raft. -/
abbrev Bytes := List UInt8

structure RaftLogEntry (C : Type) where
  command : C
  term : Nat
  index : Nat
deriving DecidableEq, Repr

inductive Role where
  | leader
  | follower
  | candidate
deriving DecidableEq, Repr

/-- A message on the apply channel; every field has Go's zero value by default. -/
structure ApplyMsg (C : Type) where
  commandValid : Bool := false
  command : Option C := none
  commandIndex : Nat := 0
  snapshotValid : Bool := false
  snapshot : Bytes := []
  snapshotTerm : Nat := 0
  snapshotIndex : Nat := 0
deriving DecidableEq, Repr

/-- What `persist` and `makeRaftState` encode, in the order they encode it. -/
structure RaftState (n : Nat) (C : Type) where
  currentTerm : Nat
  logs : List (RaftLogEntry C)
  votedFor : Option (Fin n)
  snapshotLastIncludedIndex : Nat
  snapshotLastIncludedTerm : Nat
deriving DecidableEq, Repr

/-- Stable storage; `raftstate` is `none` until something is saved. -/
structure Persister (n : Nat) (C : Type) where
  raftstate : Option (RaftState n C) := none
  snapshot : Bytes := []
deriving DecidableEq, Repr

end RaftLabs.Raft

namespace RaftLabs
open Raft

structure Raft (n : Nat) (C : Type) where
  persister : Persister n C
  me : Fin n
  snapshotMsg : ApplyMsg C
  currentTerm : Nat
  votedFor : Option (Fin n)
  logs : List (RaftLogEntry C)
  commitIndex : Nat
  lastApplied : Nat
  nextIndex : Fin n → Nat
  matchIndex : Fin n → Nat
  state : Role
  leaderTerm : Option Nat
  lastNewEntryIndex : Nat
  snapshotLastIncludedIndex : Nat
  snapshotLastIncludedTerm : Nat

end RaftLabs

namespace RaftLabs.Raft

structure AppendEntriesArgs (n : Nat) (C : Type) where
  term : Nat
  leaderId : Fin n
  prevLogIndex : Nat
  prevLogTerm : Nat
  entries : List (RaftLogEntry C)
  leaderCommit : Nat
deriving DecidableEq, Repr

structure AppendEntriesReply where
  term : Nat := 0
  success : Bool := false
  conflict : Bool := false
  conflictTerm : Nat := 0
  conflictIndex : Nat := 0
deriving DecidableEq, Repr

structure InstallSnapshotArg (n : Nat) where
  term : Nat
  leaderId : Fin n
  lastIncludedIndex : Nat
  lastIncludedTerm : Nat
  data : Bytes
deriving DecidableEq, Repr

structure InstallSnapshotReply where
  term : Nat := 0
  success : Bool := false
deriving DecidableEq, Repr

structure RequestVoteArgs (n : Nat) where
  term : Nat
  candidateId : Fin n
  lastLogIndex : Nat
  lastLogTerm : Nat
deriving DecidableEq, Repr

structure RequestVoteReply where
  term : Nat := 0
  voteGranted : Bool := false
deriving DecidableEq, Repr

variable {n : Nat} {C : Type}

/-- `rf.Half`. -/
def half (_ : Raft n C) : Nat := n / 2

/-- The index just past which a new entry goes: the last entry's, or the
snapshot's when the log is empty. -/
def lastLogIndex (rf : Raft n C) : Nat :=
  match rf.logs.getLast? with
  | none => rf.snapshotLastIncludedIndex
  | some e => e.index

/-- The term that goes with `lastLogIndex`. -/
def lastLogTerm (rf : Raft n C) : Nat :=
  match rf.logs.getLast? with
  | none => rf.snapshotLastIncludedTerm
  | some e => e.term

/-- The index of the last position of the log, `SnapshotLastIncludedIndex + len(Logs)`. -/
def endIndex (rf : Raft n C) : Nat := rf.snapshotLastIncludedIndex + rf.logs.length

/-! ### Stable storage -/

/-- The tuple `persist` encodes. -/
def raftState (rf : Raft n C) : RaftState n C where
  currentTerm := rf.currentTerm
  logs := rf.logs
  votedFor := rf.votedFor
  snapshotLastIncludedIndex := rf.snapshotLastIncludedIndex
  snapshotLastIncludedTerm := rf.snapshotLastIncludedTerm

def persist (rf : Raft n C) : Raft n C :=
  { rf with persister := { rf.persister with raftstate := some rf.raftState } }

def readPersist (rf : Raft n C) : Option (RaftState n C) → Raft n C
  | none => rf
  | some data =>
    { rf with
      currentTerm := data.currentTerm
      votedFor := data.votedFor
      logs := data.logs
      snapshotLastIncludedIndex := data.snapshotLastIncludedIndex
      snapshotLastIncludedTerm := data.snapshotLastIncludedTerm
      commitIndex := data.snapshotLastIncludedIndex
      lastApplied := data.snapshotLastIncludedIndex }

/-- `Make`: a fresh server over what its persister holds. -/
def make (me : Fin n) (persister : Persister n C) : Raft n C :=
  readPersist
    { persister := persister
      me := me
      snapshotMsg := {}
      currentTerm := 0
      votedFor := none
      logs := []
      commitIndex := 0
      lastApplied := 0
      nextIndex := fun _ => 0
      matchIndex := fun _ => 0
      state := .follower
      leaderTerm := none
      lastNewEntryIndex := 0
      snapshotLastIncludedIndex := 0
      snapshotLastIncludedTerm := 0 } persister.raftstate

/-! ### What a restart resumes with -/

/-- The saved term, 0 when nothing is saved. -/
def savedTerm (rf : Raft n C) : Nat :=
  match rf.persister.raftstate with
  | none => 0
  | some data => data.currentTerm

/-- The saved vote. -/
def savedVote (rf : Raft n C) : Option (Fin n) :=
  match rf.persister.raftstate with
  | none => none
  | some data => data.votedFor

/-- The saved log. -/
def savedLogs (rf : Raft n C) : List (RaftLogEntry C) :=
  match rf.persister.raftstate with
  | none => []
  | some data => data.logs

/-- The saved snapshot index. -/
def savedSnapshotIndex (rf : Raft n C) : Nat :=
  match rf.persister.raftstate with
  | none => 0
  | some data => data.snapshotLastIncludedIndex

/-- The saved snapshot term. -/
def savedSnapshotTerm (rf : Raft n C) : Nat :=
  match rf.persister.raftstate with
  | none => 0
  | some data => data.snapshotLastIncludedTerm

/-- A restart resumes with what was saved and forgets the rest. -/
theorem make_eq (me : Fin n) (rf : Raft n C) :
    make me rf.persister =
      { persister := rf.persister
        me := me
        snapshotMsg := {}
        currentTerm := rf.savedTerm
        votedFor := rf.savedVote
        logs := rf.savedLogs
        commitIndex := rf.savedSnapshotIndex
        lastApplied := rf.savedSnapshotIndex
        nextIndex := fun _ => 0
        matchIndex := fun _ => 0
        state := .follower
        leaderTerm := none
        lastNewEntryIndex := 0
        snapshotLastIncludedIndex := rf.savedSnapshotIndex
        snapshotLastIncludedTerm := rf.savedSnapshotTerm } := by
  unfold make savedTerm savedVote savedLogs savedSnapshotIndex savedSnapshotTerm
  cases rf.persister.raftstate <;> rfl

end RaftLabs.Raft
