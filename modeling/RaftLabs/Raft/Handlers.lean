import RaftLabs.Raft.Server

/-! The methods of a Raft server, each as one step under `rf.mu`.

A method returns `none` where the Go code would panic on an index or a slice out
of range. Go lets a slice reach past the length of the log, up to its capacity.
Only `applyLog` slices so that it can, and it is modelled twice: `applyLog` stays
inside the log, `applyLogFrom` reads the slots of the array behind it. Loops over
positions that can be negative keep them as integers. -/
namespace RaftLabs.Raft
variable {n : Nat} {C : Type}

/-- `l[i]`. -/
def at? {α : Type} (l : List α) (i : Int) : Option α :=
  if 0 ≤ i then l[i.toNat]? else none

/-- `l[lo:hi]`, where nothing follows `l` in its array. -/
def slice? {α : Type} (l : List α) (lo hi : Int) : Option (List α) :=
  if 0 ≤ lo ∧ lo ≤ hi ∧ hi ≤ l.length then some ((l.take hi.toNat).drop lo.toNat) else none

/-- The block that answers a higher term: back to follower, no vote, and the
verified index back at the commit index. -/
def stepDown (rf : Raft n C) (term : Nat) : Raft n C :=
  { rf with
    state := .follower
    currentTerm := term
    votedFor := none
    leaderTerm := some term
    lastNewEntryIndex := rf.commitIndex }

/-! ### AppendEntries -/

/-- The block with which `AppendEntries` and `InstallSnapshot` accept a leader
whose term is not below theirs; the flag is `stateChange`. -/
def acceptLeader (rf : Raft n C) (term : Nat) : Raft n C × Bool :=
  let rf := { rf with state := .follower }
  let newLeader := rf.leaderTerm != some term
  let rf :=
    if newLeader then
      { rf with
        leaderTerm := some term
        lastNewEntryIndex := rf.commitIndex
        votedFor := none }
    else rf
  if rf.currentTerm < term then
    ({ rf with
        currentTerm := term
        votedFor := none
        leaderTerm := some term
        lastNewEntryIndex := rf.commitIndex }, true)
  else (rf, newLeader)

/-- What a follower finds at `PrevLogIndex`. -/
inductive PrevCheck where
  | matched
  | conflict (term index : Nat)
deriving DecidableEq, Repr

/-- The loop that looks back for the first entry of the conflicting term; the
argument is one more than the source's `i`. -/
def conflictIndex (logs : List (RaftLogEntry C)) (prevTerm found : Nat) : Nat → Option Nat
  | 0 => some found
  | i + 1 => do
    let e ← logs[i]?
    if e.term ≠ prevTerm then
      let next ← logs[i + 1]?
      return next.index
    else conflictIndex logs prevTerm found i

/-- Step 2: does the log hold an entry at `PrevLogIndex` with `PrevLogTerm`? A
position inside the snapshot is not compared. -/
def checkPrev (rf : Raft n C) (args : AppendEntriesArgs n C) : Option PrevCheck :=
  if args.prevLogIndex ≤ rf.snapshotLastIncludedIndex then some .matched
  else if rf.endIndex < args.prevLogIndex then some (.conflict 0 rf.endIndex)
  else do
    let pos := args.prevLogIndex - rf.snapshotLastIncludedIndex - 1
    let e ← rf.logs[pos]?
    if e.term ≠ args.prevLogTerm then
      let index ← conflictIndex rf.logs e.term e.index (pos + 1)
      return .conflict e.term index
    else return .matched

/-- The comparison loop of step 3, from position `index` of the log: where it
stops and the entries not yet compared. A negative position lies in the snapshot. -/
def mergeScan (logs : List (RaftLogEntry C)) : Int → List (RaftLogEntry C) →
    Int × List (RaftLogEntry C)
  | index, [] => (index, [])
  | index, e :: rest =>
    if index < logs.length then
      if index < 0 then mergeScan logs (index + 1) rest
      else
        match logs[index.toNat]? with
        | none => (index, e :: rest)
        | some old =>
          if old.index ≠ e.index ∨ old.term ≠ e.term then (index, e :: rest)
          else mergeScan logs (index + 1) rest
    else (index, e :: rest)

/-- Steps 3 and 4; the flag says whether the log changed. -/
def mergeEntries (rf : Raft n C) (args : AppendEntriesArgs n C) : Option (Raft n C × Bool) :=
  if args.entries = [] then some (rf, false)
  else
    let scan := mergeScan rf.logs
      ((args.prevLogIndex : Int) - rf.snapshotLastIncludedIndex) args.entries
    let last := max rf.lastNewEntryIndex (args.prevLogIndex + args.entries.length)
    if scan.2 = [] then some ({ rf with lastNewEntryIndex := last }, false)
    else do
      let kept ← slice? rf.logs 0 scan.1
      return ({ rf with logs := kept ++ scan.2, lastNewEntryIndex := last }, true)

/-- Step 5. -/
def followCommit (rf : Raft n C) (leaderCommit : Nat) : Raft n C :=
  if rf.commitIndex < leaderCommit then
    { rf with commitIndex := min leaderCommit rf.lastNewEntryIndex }
  else rf

/-- The reply carries the term held on arrival. A conflict returns before
`persist`, whatever `acceptLeader` changed. -/
def appendEntries (rf : Raft n C) (args : AppendEntriesArgs n C) :
    Option (Raft n C × AppendEntriesReply) :=
  if args.term < rf.currentTerm then some (rf, { term := rf.currentTerm })
  else do
    let (rf₁, stateChange) := acceptLeader rf args.term
    match ← checkPrev rf₁ args with
    | .conflict term index =>
      return (rf₁, { term := rf.currentTerm, conflict := true, conflictTerm := term,
                     conflictIndex := index })
    | .matched =>
      let (rf₂, appended) ← mergeEntries rf₁ args
      let rf₃ := followCommit rf₂ args.leaderCommit
      return (if stateChange || appended then rf₃.persist else rf₃,
        { term := rf.currentTerm, success := true })

/-- The position past the entries of `term`, from `index` on. -/
def skipTerm (logs : List (RaftLogEntry C)) (term index : Nat) : Nat :=
  index + ((logs.drop index).takeWhile (fun e => e.term == term)).length

/-- `NextIndex` after a conflict reply. -/
def backOff (rf : Raft n C) (reply : AppendEntriesReply) : Option Nat :=
  if reply.conflictTerm ≠ 0 then
    match rf.logs.findIdx? (fun e => e.term == reply.conflictTerm) with
    | some index => (rf.logs[skipTerm rf.logs reply.conflictTerm index]?).map (·.index)
    | none => some reply.conflictIndex
  else some (max reply.conflictIndex 1)

/-- `sendAppendEntries` after its call has returned; a call that failed leaves the
zero reply. -/
def appendEntriesReturned (rf : Raft n C) (server : Fin n) (args : AppendEntriesArgs n C)
    (reply : AppendEntriesReply) : Option (Raft n C) :=
  if rf.currentTerm < reply.term then some (rf.stepDown reply.term).persist
  else if reply.term < rf.currentTerm then some rf
  else if rf.currentTerm = args.term then
    let acked := args.prevLogIndex + args.entries.length
    if reply.success then
      some { rf with
        matchIndex := Function.update rf.matchIndex server (max (rf.matchIndex server) acked)
        nextIndex := Function.update rf.nextIndex server (max (rf.nextIndex server) (acked + 1)) }
    else if reply.conflict ∧ rf.nextIndex server = args.prevLogIndex + 1 then do
      let next ← backOff rf reply
      return { rf with nextIndex := Function.update rf.nextIndex server next }
    else some rf
  else some rf

/-! ### Snapshots -/

/-- The state with the log cut below `upperbound`. The snapshot term is the local
log's own, or stays as it was when nothing is cut. -/
def makeRaftState (rf : Raft n C) (upperbound : Nat) : Option (RaftState n C) :=
  match rf.logs with
  | [] => some { rf.raftState with
      snapshotLastIncludedIndex := max rf.snapshotLastIncludedIndex (upperbound - 1) }
  | first :: _ =>
    if upperbound ≤ first.index then some { rf.raftState with
      snapshotLastIncludedIndex := max rf.snapshotLastIncludedIndex (upperbound - 1) }
    else do
      let cut := min (upperbound - first.index) rf.logs.length
      let last ← rf.logs[cut - 1]?
      return { rf.raftState with
        logs := rf.logs.drop cut
        snapshotLastIncludedIndex := max last.index (upperbound - 1)
        snapshotLastIncludedTerm := last.term }

/-- The persister gets the term `makeRaftState` computed, memory the sender's. -/
def installSnapshot (rf : Raft n C) (args : InstallSnapshotArg n) :
    Option (Raft n C × InstallSnapshotReply) :=
  if args.term < rf.currentTerm then some (rf, { term := rf.currentTerm })
  else
    let reply := { term := rf.currentTerm, success := true }
    let rf := (acceptLeader rf args.term).1
    if args.lastIncludedIndex ≤ rf.snapshotLastIncludedIndex ∨
        args.lastIncludedIndex < rf.snapshotMsg.snapshotIndex then some (rf.persist, reply)
    else do
      let saved ← makeRaftState rf (args.lastIncludedIndex + 1)
      return ({ rf with
        snapshotMsg :=
          { snapshotValid := true
            snapshot := args.data
            snapshotTerm := args.lastIncludedTerm
            snapshotIndex := args.lastIncludedIndex }
        persister := { raftstate := some saved, snapshot := args.data }
        logs := saved.logs
        snapshotLastIncludedIndex := args.lastIncludedIndex
        snapshotLastIncludedTerm := args.lastIncludedTerm
        commitIndex := max rf.commitIndex args.lastIncludedIndex
        lastApplied := max rf.lastApplied args.lastIncludedIndex }, reply)

/-- `sendInstallSnapshot` after its call has returned. -/
def installSnapshotReturned (rf : Raft n C) (server : Fin n) (args : InstallSnapshotArg n)
    (reply : InstallSnapshotReply) : Raft n C :=
  if rf.currentTerm < reply.term then (rf.stepDown reply.term).persist
  else if reply.term < rf.currentTerm then rf
  else if rf.currentTerm = args.term ∧ reply.success then
    { rf with
      matchIndex := Function.update rf.matchIndex server
        (max (rf.matchIndex server) args.lastIncludedIndex)
      nextIndex := Function.update rf.nextIndex server
        (max (rf.nextIndex server) (args.lastIncludedIndex + 1)) }
  else rf

/-- The service's `Snapshot(index, data)`. -/
def snapshot (rf : Raft n C) (index : Nat) (data : Bytes) : Option (Raft n C) :=
  if index < rf.snapshotLastIncludedIndex then some rf
  else do
    let saved ← makeRaftState rf (index + 1)
    return { rf with
      persister := { raftstate := some saved, snapshot := data }
      logs := saved.logs
      snapshotLastIncludedIndex := max saved.snapshotLastIncludedIndex index
      snapshotLastIncludedTerm := saved.snapshotLastIncludedTerm
      commitIndex := max rf.commitIndex index
      lastApplied := max rf.lastApplied index }

/-! ### Elections -/

def requestVote (rf : Raft n C) (args : RequestVoteArgs n) : Raft n C × RequestVoteReply :=
  if args.term < rf.currentTerm then (rf, { term := rf.currentTerm })
  else
    let reply : RequestVoteReply := { term := rf.currentTerm }
    let rf := if rf.currentTerm < args.term then (rf.stepDown args.term).persist else rf
    if rf.votedFor = none ∨ rf.votedFor = some args.candidateId then
      if args.lastLogTerm < rf.lastLogTerm then (rf, reply)
      else if args.lastLogTerm = rf.lastLogTerm ∧ args.lastLogIndex < rf.lastLogIndex then
        (rf, reply)
      else
        ({ rf with votedFor := some args.candidateId }.persist, { reply with voteGranted := true })
    else (rf, reply)

/-- The candidate's new state and the request it sends to every peer. -/
def prepareElection (rf : Raft n C) : Raft n C × RequestVoteArgs n :=
  let rf :=
    { rf with
      currentTerm := rf.currentTerm + 1
      votedFor := some rf.me
      state := .candidate }
  (rf.persist,
    { term := rf.currentTerm
      candidateId := rf.me
      lastLogIndex := rf.lastLogIndex
      lastLogTerm := rf.lastLogTerm })

/-- The tables a new leader starts from; its heartbeats and goroutines are the
cluster's business. -/
def becomeLeader (rf : Raft n C) : Raft n C :=
  { rf with
    state := .leader
    matchIndex := fun i => if i ≠ rf.me then 0 else rf.lastLogIndex
    nextIndex := fun _ => rf.lastLogIndex + 1 }

/-! ### The leader -/

/-- `Start`: the index and the term of the new entry, or `none` for a server that is
not the leader. -/
def start (rf : Raft n C) (command : C) : Raft n C × Option (Nat × Nat) :=
  if rf.state ≠ .leader then (rf, none)
  else
    let entry := { command := command, term := rf.currentTerm, index := rf.lastLogIndex + 1 }
    ({ rf with
        logs := rf.logs ++ [entry]
        nextIndex := Function.update rf.nextIndex rf.me (entry.index + 1)
        matchIndex := Function.update rf.matchIndex rf.me entry.index }.persist,
      some (entry.index, entry.term))

/-- A heartbeat's arguments for `server`. -/
def heartBeatArgs (rf : Raft n C) (server : Fin n) : Option (AppendEntriesArgs n C) :=
  let args : AppendEntriesArgs n C :=
    { term := rf.currentTerm
      leaderId := rf.me
      prevLogIndex := rf.snapshotLastIncludedIndex
      prevLogTerm := rf.snapshotLastIncludedTerm
      entries := []
      leaderCommit := rf.commitIndex }
  if rf.logs ≠ [] ∧ rf.snapshotLastIncludedIndex + 1 < rf.nextIndex server then do
    let prev ← at? rf.logs ((rf.nextIndex server : Int) - rf.snapshotLastIncludedIndex - 2)
    return { args with prevLogIndex := prev.index, prevLogTerm := prev.term }
  else some args

/-- What one round of `replicateLog` sends to a server that is behind. -/
inductive Replication (n : Nat) (C : Type) where
  | upToDate
  | snapshot (args : InstallSnapshotArg n)
  | entries (args : AppendEntriesArgs n C)

/-- One round of `replicateLog` for `server` while the term lasts. The entries are those of this
moment; the request shares the array of the log until it is encoded (`Raft.Memory`). -/
def replicateLog (rf : Raft n C) (server : Fin n) : Option (Replication n C) :=
  if rf.nextIndex server = rf.nextIndex rf.me then some .upToDate
  else if rf.nextIndex server ≤ rf.snapshotLastIncludedIndex then
    some (.snapshot
      { term := rf.currentTerm
        leaderId := rf.me
        lastIncludedIndex := rf.snapshotLastIncludedIndex
        lastIncludedTerm := rf.snapshotLastIncludedTerm
        data := rf.persister.snapshot })
  else do
    let entries ← slice? rf.logs ((rf.nextIndex server : Int) - rf.snapshotLastIncludedIndex - 1)
      rf.logs.length
    let args : AppendEntriesArgs n C :=
      { term := rf.currentTerm
        leaderId := rf.me
        prevLogIndex := rf.snapshotLastIncludedIndex
        prevLogTerm := rf.snapshotLastIncludedTerm
        entries := entries
        leaderCommit := rf.commitIndex }
    if rf.nextIndex server ≠ rf.snapshotLastIncludedIndex + 1 then
      let prev ← at? rf.logs ((rf.nextIndex server : Int) - rf.snapshotLastIncludedIndex - 2)
      return .entries { args with prevLogIndex := prev.index, prevLogTerm := prev.term }
    else return .entries args

/-- How many servers are known to hold `index`. -/
def replicas (rf : Raft n C) (index : Nat) : Nat :=
  (List.finRange n).countP fun j => index ≤ rf.matchIndex j

/-- The scan of `updateCommitIndex` over the log, last entry first: the index it
commits. It stops at the first entry of another term. -/
def commitScan (rf : Raft n C) (leaderTerm : Nat) : List (RaftLogEntry C) → Option Nat
  | [] => none
  | e :: rest =>
    if e.term ≠ leaderTerm then none
    else if rf.half < rf.replicas e.index then some e.index
    else commitScan rf leaderTerm rest

/-- One round of `updateCommitIndex` while the term lasts; the flag says whether it
assigned `CommitIndex`. -/
def updateCommitIndex (rf : Raft n C) (leaderTerm : Nat) : Raft n C × Bool :=
  match commitScan rf leaderTerm rf.logs.reverse with
  | none => (rf, false)
  | some index => ({ rf with commitIndex := max rf.commitIndex index }, true)

/-! ### Applying -/

/-- The command message for an entry. -/
def commandMsg (e : RaftLogEntry C) : ApplyMsg C :=
  { commandValid := true, command := some e.command, commandIndex := e.index }

/-- The entries between `LastApplied` and `CommitIndex`. -/
def applyLogs (rf : Raft n C) : Option (List (RaftLogEntry C)) :=
  if rf.lastApplied < rf.commitIndex then
    slice? rf.logs ((rf.lastApplied : Int) - rf.snapshotLastIncludedIndex)
      ((rf.commitIndex : Int) - rf.snapshotLastIncludedIndex)
  else some []

/-- The pending snapshot, then the commands it does not cover. -/
def queue (rf : Raft n C) (commands : List (ApplyMsg C)) : List (ApplyMsg C) :=
  let snap := rf.snapshotMsg.snapshotIndex
  let uncovered := commands.filter fun m => snap == 0 || decide (snap < m.commandIndex)
  if snap ≠ 0 then rf.snapshotMsg :: uncovered else uncovered

/-- The messages for the entries taken. -/
def applyMsgs (rf : Raft n C) (logs : List (RaftLogEntry C)) : List (ApplyMsg C) :=
  rf.queue (logs.map commandMsg)

/-- The first locked section of `applyLog`: the messages to send and the last index
among the entries taken. The caller checks that there is something to apply. -/
def applyLog (rf : Raft n C) : Option (Raft n C × List (ApplyMsg C) × Option Nat) :=
  (applyLogs rf).map fun logs =>
    ({ rf with snapshotMsg := {} }, applyMsgs rf logs, logs.getLast?.map (·.index))

/-- The message for a slot of an array; one that was never written holds the zero
entry, with a nil command. -/
def slotMsg : Option (RaftLogEntry C) → ApplyMsg C
  | none => { commandValid := true }
  | some e => commandMsg e

/-- The same section when the array behind `rf.Logs` holds `slots`, from the start of
the log to its capacity. Past the end of the log these are entries that were cut
off, or nothing. -/
def applyLogFrom (rf : Raft n C) (slots : List (Option (RaftLogEntry C))) :
    Option (Raft n C × List (ApplyMsg C) × Option Nat) :=
  let taken :=
    if rf.lastApplied < rf.commitIndex then
      slice? slots ((rf.lastApplied : Int) - rf.snapshotLastIncludedIndex)
        ((rf.commitIndex : Int) - rf.snapshotLastIncludedIndex)
    else some []
  taken.map fun taken =>
    ({ rf with snapshotMsg := {} }, rf.queue (taken.map slotMsg),
      taken.getLast?.map fun slot => (slotMsg slot).commandIndex)

/-- The wait condition of `applyLog`, negated. -/
def hasWork (rf : Raft n C) : Bool :=
  !(decide (rf.commitIndex ≤ rf.lastApplied) && rf.snapshotMsg.snapshotIndex == 0)

/-- The second locked section of `applyLog`. -/
def applied (rf : Raft n C) : Option Nat → Raft n C
  | none => rf
  | some index => { rf with lastApplied := max rf.lastApplied index }

/-- As long as `CommitIndex` is in the log, so is all that `applyLog` takes. -/
theorem applyLogFrom_eq {rf : Raft n C} {slots rest : List (Option (RaftLogEntry C))}
    (hslots : slots = rf.logs.map some ++ rest) (hcommit : rf.commitIndex ≤ rf.endIndex) :
    rf.applyLogFrom slots = rf.applyLog := by
  have hmsgs : ∀ taken : List (RaftLogEntry C),
      (taken.map some).map slotMsg = taken.map commandMsg := fun taken => by
    rw [List.map_map]
    rfl
  unfold applyLogFrom applyLog applyLogs
  split
  · have hhi : (rf.commitIndex : Int) - rf.snapshotLastIncludedIndex ≤ rf.logs.length := by
      unfold endIndex at hcommit
      omega
    unfold slice?
    by_cases hlo : 0 ≤ (rf.lastApplied : Int) - rf.snapshotLastIncludedIndex ∧
        (rf.lastApplied : Int) - rf.snapshotLastIncludedIndex ≤
          (rf.commitIndex : Int) - rf.snapshotLastIncludedIndex
    · have htake : ((slots.take ((rf.commitIndex : Int) - rf.snapshotLastIncludedIndex).toNat).drop
          ((rf.lastApplied : Int) - rf.snapshotLastIncludedIndex).toNat) =
          ((rf.logs.take ((rf.commitIndex : Int) - rf.snapshotLastIncludedIndex).toNat).drop
            ((rf.lastApplied : Int) - rf.snapshotLastIncludedIndex).toNat).map some := by
        rw [hslots, List.take_append_of_le_length (by rw [List.length_map]; omega), List.map_drop,
          List.map_take]
      have hlen : (rf.logs.length : Int) ≤ slots.length := by
        rw [hslots, List.length_append, List.length_map]
        omega
      rw [if_pos ⟨hlo.1, hlo.2, by omega⟩, if_pos ⟨hlo.1, hlo.2, hhi⟩, htake]
      simp only [Option.map_some, hmsgs, List.getLast?_map, Option.map_map]
      rfl
    · rw [if_neg fun h => hlo ⟨h.1, h.2.1⟩, if_neg fun h => hlo ⟨h.1, h.2.1⟩]
      rfl
  · rfl

/-! ### What a leader sends -/

/-- The predecessor of the entries from `next` on, as a leader names it: the snapshot
or an entry of its log. -/
def Precedes (rf : Raft n C) (next prevIndex prevTerm : Nat) : Prop :=
  (prevIndex = rf.snapshotLastIncludedIndex ∧ prevTerm = rf.snapshotLastIncludedTerm) ∨
    ∃ prev, at? rf.logs ((next : Int) - rf.snapshotLastIncludedIndex - 2) = some prev ∧
      prevIndex = prev.index ∧ prevTerm = prev.term

theorem heartBeatArgs_cases {rf : Raft n C} {server : Fin n} {args : AppendEntriesArgs n C}
    (h : heartBeatArgs rf server = some args) :
    ∃ prevIndex prevTerm, Precedes rf (rf.nextIndex server) prevIndex prevTerm ∧
      args = { term := rf.currentTerm, leaderId := rf.me, prevLogIndex := prevIndex,
               prevLogTerm := prevTerm, entries := [], leaderCommit := rf.commitIndex } := by
  unfold heartBeatArgs at h
  dsimp only at h
  split at h
  · simp only [Option.bind_eq_bind, Option.bind_eq_some_iff, Option.pure_def,
      Option.some.injEq] at h
    obtain ⟨prev, hprev, rfl⟩ := h
    exact ⟨_, _, .inr ⟨prev, hprev, rfl, rfl⟩, rfl⟩
  · cases h
    exact ⟨_, _, .inl ⟨rfl, rfl⟩, rfl⟩

/-- A server that is behind the snapshot gets the snapshot, any other the entries it
misses. -/
theorem replicateLog_cases {rf : Raft n C} {server : Fin n} {sent : Replication n C}
    (h : replicateLog rf server = some sent) :
    sent = .upToDate ∨
    (rf.nextIndex server ≤ rf.snapshotLastIncludedIndex ∧ sent = .snapshot
      { term := rf.currentTerm, leaderId := rf.me
        lastIncludedIndex := rf.snapshotLastIncludedIndex
        lastIncludedTerm := rf.snapshotLastIncludedTerm
        data := rf.persister.snapshot }) ∨
    (rf.snapshotLastIncludedIndex < rf.nextIndex server ∧ ∃ prevIndex prevTerm entries,
      slice? rf.logs ((rf.nextIndex server : Int) - rf.snapshotLastIncludedIndex - 1)
        rf.logs.length = some entries ∧
      ((rf.nextIndex server = rf.snapshotLastIncludedIndex + 1 ∧
        prevIndex = rf.snapshotLastIncludedIndex ∧ prevTerm = rf.snapshotLastIncludedTerm) ∨
       (rf.nextIndex server ≠ rf.snapshotLastIncludedIndex + 1 ∧
        ∃ prev, at? rf.logs ((rf.nextIndex server : Int) - rf.snapshotLastIncludedIndex - 2) =
          some prev ∧ prevIndex = prev.index ∧ prevTerm = prev.term)) ∧
      sent = .entries
        { term := rf.currentTerm, leaderId := rf.me, prevLogIndex := prevIndex
          prevLogTerm := prevTerm, entries := entries, leaderCommit := rf.commitIndex }) := by
  unfold replicateLog at h
  dsimp only at h
  split at h
  · cases h
    exact .inl rfl
  · split at h
    · rename_i hle
      cases h
      exact .inr (.inl ⟨hle, rfl⟩)
    · rename_i hgt
      refine .inr (.inr ⟨Nat.lt_of_not_le hgt, ?_⟩)
      simp only [Option.bind_eq_bind, Option.bind_eq_some_iff] at h
      obtain ⟨entries, hentries, h⟩ := h
      split at h
      · rename_i hne
        simp only [Option.bind_eq_some_iff, Option.pure_def, Option.some.injEq] at h
        obtain ⟨prev, hprev, rfl⟩ := h
        exact ⟨_, _, _, hentries, .inr ⟨hne, prev, hprev, rfl, rfl⟩, rfl⟩
      · rename_i heq
        cases h
        exact ⟨_, _, _, hentries, .inl ⟨not_not.mp heq, rfl, rfl⟩, rfl⟩

theorem replicateLog_snapshot {rf : Raft n C} {server : Fin n} {args : InstallSnapshotArg n}
    (h : replicateLog rf server = some (.snapshot args)) :
    args = { term := rf.currentTerm, leaderId := rf.me
             lastIncludedIndex := rf.snapshotLastIncludedIndex
             lastIncludedTerm := rf.snapshotLastIncludedTerm
             data := rf.persister.snapshot } := by
  rcases replicateLog_cases h with heq | ⟨_, heq⟩ | ⟨_, _, _, _, _, _, heq⟩
  · cases heq
  · exact Replication.snapshot.inj heq
  · cases heq

theorem replicateLog_entries_term {rf : Raft n C} {server : Fin n} {args : AppendEntriesArgs n C}
    (h : replicateLog rf server = some (.entries args)) : args.term = rf.currentTerm := by
  rcases replicateLog_cases h with heq | ⟨_, heq⟩ | ⟨_, _, _, _, _, _, heq⟩
  · cases heq
  · cases heq
  · cases heq
    rfl

/-! ### What comes of a request or a reply -/

/-- The server after `RequestVote`: as it was, in a new term, or with a vote given, in its own
term or in a new one. -/
theorem requestVote_shape (rf : Raft n C) (args : RequestVoteArgs n) :
    (rf.requestVote args).1 = rf ∨
    (rf.currentTerm < args.term ∧ (rf.requestVote args).1 = (rf.stepDown args.term).persist) ∨
    (rf.requestVote args).1 = { rf with votedFor := some args.candidateId }.persist ∨
    (rf.currentTerm < args.term ∧ (rf.requestVote args).1 =
      { (rf.stepDown args.term).persist with votedFor := some args.candidateId }.persist) := by
  unfold requestVote
  by_cases hlt : rf.currentTerm < args.term
  · rw [if_neg (by omega), if_pos hlt]
    dsimp only
    split
    · split
      · exact .inr (.inl ⟨hlt, rfl⟩)
      · split
        · exact .inr (.inl ⟨hlt, rfl⟩)
        · exact .inr (.inr (.inr ⟨hlt, rfl⟩))
    · exact .inr (.inl ⟨hlt, rfl⟩)
  · rw [if_neg hlt]
    dsimp only
    split
    · exact .inl rfl
    · split
      · split
        · exact .inl rfl
        · split
          · exact .inl rfl
          · exact .inr (.inr (.inl rfl))
      · exact .inl rfl

/-- The tables after `server` has confirmed everything up to `k`. -/
def confirmed (rf : Raft n C) (server : Fin n) (k : Nat) : Raft n C :=
  { rf with
    matchIndex := Function.update rf.matchIndex server (max (rf.matchIndex server) k)
    nextIndex := Function.update rf.nextIndex server (max (rf.nextIndex server) (k + 1)) }

/-- The tables after a conflict at `server`. -/
def retreated (rf : Raft n C) (server : Fin n) (next : Nat) : Raft n C :=
  { rf with nextIndex := Function.update rf.nextIndex server next }

/-- The reply to the request is a conflict, and the server acts on it. -/
structure Refused (rf : Raft n C) (server : Fin n) (args : AppendEntriesArgs n C)
    (reply : AppendEntriesReply) : Prop where
  conflict : reply.conflict = true
  replyTerm : reply.term = rf.currentTerm
  term : rf.currentTerm = args.term
  next : rf.nextIndex server = args.prevLogIndex + 1

instance (rf : Raft n C) (server : Fin n) (args : AppendEntriesArgs n C)
    (reply : AppendEntriesReply) : Decidable (Refused rf server args reply) :=
  decidable_of_iff (reply.conflict = true ∧ reply.term = rf.currentTerm ∧
      rf.currentTerm = args.term ∧ rf.nextIndex server = args.prevLogIndex + 1)
    ⟨fun h => ⟨h.1, h.2.1, h.2.2.1, h.2.2.2⟩, fun h => ⟨h.1, h.2, h.3, h.4⟩⟩

/-- What comes of a reply to `AppendEntries`: a higher term, nothing, a confirmed index, or a
`NextIndex` that moves back. -/
theorem appendEntriesReturned_moves {rf rf' : Raft n C} {server : Fin n}
    {args : AppendEntriesArgs n C} {reply : AppendEntriesReply}
    (h : rf.appendEntriesReturned server args reply = some rf') :
    (rf.currentTerm < reply.term ∧ rf' = (rf.stepDown reply.term).persist) ∨ rf' = rf ∨
    (rf.currentTerm = args.term ∧ reply.success = true ∧
      rf' = rf.confirmed server (args.prevLogIndex + args.entries.length)) ∨
    (Refused rf server args reply ∧ ∃ next, backOff rf reply = some next ∧
      rf' = rf.retreated server next) := by
  unfold appendEntriesReturned at h
  split at h
  · cases h
    exact .inl ⟨‹_›, rfl⟩
  · rename_i hlow
    split at h
    · exact .inr (.inl (Option.some.inj h).symm)
    · rename_i hhigh
      split at h
      · rename_i hterm
        dsimp only at h
        split at h
        · cases h
          exact .inr (.inr (.inl ⟨hterm, ‹_›, rfl⟩))
        · split at h
          · rename_i hconflict
            simp only [Option.bind_eq_bind, Option.bind_eq_some_iff, Option.pure_def,
              Option.some.injEq] at h
            obtain ⟨next, hback, rfl⟩ := h
            exact .inr (.inr (.inr ⟨⟨hconflict.1, by omega, hterm, hconflict.2⟩, next, hback, rfl⟩))
          · exact .inr (.inl (Option.some.inj h).symm)
      · exact .inr (.inl (Option.some.inj h).symm)

/-- The same for `InstallSnapshot`. -/
theorem installSnapshotReturned_moves (rf : Raft n C) (server : Fin n) (args : InstallSnapshotArg n)
    (reply : InstallSnapshotReply) :
    (rf.currentTerm < reply.term ∧
      rf.installSnapshotReturned server args reply = (rf.stepDown reply.term).persist) ∨
    rf.installSnapshotReturned server args reply = rf ∨
    (rf.currentTerm = args.term ∧ reply.success = true ∧
      rf.installSnapshotReturned server args reply =
        rf.confirmed server args.lastIncludedIndex) := by
  unfold installSnapshotReturned
  split
  · exact .inl ⟨‹_›, rfl⟩
  · split
    · exact .inr (.inl rfl)
    · split
      · rename_i hok
        exact .inr (.inr ⟨hok.1, hok.2, rfl⟩)
      · exact .inr (.inl rfl)

end RaftLabs.Raft
