import RaftLabs.Raft.Cluster

/-! What each method does to a server's term and vote.

All methods but `prepareElection`, a granted `requestVote` and a restart change
the term and the vote in one of three ways, `Quiet`: not at all; up to a higher
term, with the vote cleared; or, inside the term, clearing the vote because
`LeaderTerm` named another term. Only a leader's request does the last. What the
persister holds afterwards is either what it held before or the new pair. -/
namespace RaftLabs.Raft
variable {n : Nat} {C : Type}

/-- The saved pair is the old one or the current one. -/
def Saved (rf rf' : Raft n C) : Prop :=
  (rf'.savedTerm = rf.savedTerm ∧ rf'.savedVote = rf.savedVote) ∨
    (rf'.savedTerm = rf'.currentTerm ∧ rf'.savedVote = rf'.votedFor)

/-- Term, vote and leader term are untouched. -/
structure SameBallot (rf rf' : Raft n C) : Prop where
  term : rf'.currentTerm = rf.currentTerm
  vote : rf'.votedFor = rf.votedFor
  leader : rf'.leaderTerm = rf.leaderTerm

/-- Up to a higher term, which is also the new leader term. -/
structure HigherTerm (rf rf' : Raft n C) : Prop where
  term : rf.currentTerm < rf'.currentTerm
  vote : rf'.votedFor = none
  leader : rf'.leaderTerm = some rf'.currentTerm
  state : rf'.state = .follower

/-- The vote is cleared inside the term. -/
structure VoteReset (rf rf' : Raft n C) : Prop where
  term : rf'.currentTerm = rf.currentTerm
  vote : rf'.votedFor = none
  other : rf.leaderTerm ≠ some rf.currentTerm
  leader : rf'.leaderTerm = some rf.currentTerm
  state : rf'.state = .follower

/-- A change that casts no vote. -/
structure Quiet (rf rf' : Raft n C) : Prop where
  me : rf'.me = rf.me
  saved : Saved rf rf'
  state : rf'.state = rf.state ∨ rf'.state = .follower
  ballot : SameBallot rf rf' ∨ HigherTerm rf rf' ∨ VoteReset rf rf'

theorem Quiet.refl (rf : Raft n C) : Quiet rf rf :=
  ⟨rfl, .inl ⟨rfl, rfl⟩, .inl rfl, .inl ⟨rfl, rfl, rfl⟩⟩

theorem savedTerm_persist (rf : Raft n C) : rf.persist.savedTerm = rf.currentTerm := rfl

/-- Saving does not disturb a quiet change. -/
theorem Quiet.persist {rf rf' : Raft n C} (h : Quiet rf rf') : Quiet rf rf'.persist := by
  obtain ⟨hme, _, hstate, hballot⟩ := h
  refine ⟨hme, .inr ⟨rfl, rfl⟩, hstate, ?_⟩
  rcases hballot with h | h | h
  · exact .inl ⟨h.term, h.vote, h.leader⟩
  · exact .inr (.inl ⟨h.term, h.vote, h.leader, h.state⟩)
  · exact .inr (.inr ⟨h.term, h.vote, h.other, h.leader, h.state⟩)

/-- Fields outside the ballot are free to move afterwards. -/
theorem Quiet.congr {rf rf₁ rf₂ : Raft n C} (h : Quiet rf rf₁) (hme : rf₂.me = rf₁.me)
    (hp : rf₂.persister.raftstate = rf₁.persister.raftstate)
    (hterm : rf₂.currentTerm = rf₁.currentTerm) (hvote : rf₂.votedFor = rf₁.votedFor)
    (hleader : rf₂.leaderTerm = rf₁.leaderTerm) (hstate : rf₂.state = rf₁.state) :
    Quiet rf rf₂ := by
  have hsT : rf₂.savedTerm = rf₁.savedTerm := by unfold savedTerm; rw [hp]
  have hsV : rf₂.savedVote = rf₁.savedVote := by unfold savedVote; rw [hp]
  obtain ⟨h1, h2, h3, h4⟩ := h
  refine ⟨hme.trans h1, ?_, by rw [hstate]; exact h3, ?_⟩
  · unfold Saved at h2 ⊢
    rw [hsT, hsV, hterm, hvote]
    exact h2
  · rcases h4 with h | h | h
    · exact .inl ⟨hterm.trans h.term, hvote.trans h.vote, hleader.trans h.leader⟩
    · exact .inr (.inl ⟨by rw [hterm]; exact h.term, hvote.trans h.vote,
        by rw [hleader, hterm]; exact h.leader, hstate.trans h.state⟩)
    · exact .inr (.inr ⟨hterm.trans h.term, hvote.trans h.vote, h.other,
        hleader.trans h.leader, hstate.trans h.state⟩)

theorem stepDown_quiet (rf : Raft n C) {term : Nat} (h : rf.currentTerm < term) :
    Quiet rf (rf.stepDown term) :=
  ⟨rfl, .inl ⟨rfl, rfl⟩, .inr rfl, .inr (.inl ⟨h, rfl, rfl, rfl⟩)⟩

/-! ### Accepting a leader -/

theorem acceptLeader_quiet (rf : Raft n C) {term : Nat} (h : rf.currentTerm ≤ term) :
    Quiet rf (acceptLeader rf term).1 := by
  rcases Nat.lt_or_eq_of_le h with hlt | heq
  · refine ⟨?_, ?_, ?_, .inr (.inl ⟨?_, ?_, ?_, ?_⟩)⟩ <;>
      by_cases hl : rf.leaderTerm = some term <;>
      simp [acceptLeader, hl, hlt, Saved, savedTerm, savedVote]
  · subst heq
    by_cases hl : rf.leaderTerm = some rf.currentTerm
    · refine ⟨?_, ?_, ?_, .inl ⟨?_, ?_, ?_⟩⟩ <;>
        simp [acceptLeader, hl, Saved, savedTerm, savedVote]
    · refine ⟨?_, ?_, ?_, .inr (.inr ⟨?_, ?_, hl, ?_, ?_⟩)⟩ <;>
        simp [acceptLeader, hl, Saved, savedTerm, savedVote]

theorem acceptLeader_term (rf : Raft n C) {term : Nat} (h : rf.currentTerm ≤ term) :
    (acceptLeader rf term).1.currentTerm = term := by
  rcases Nat.lt_or_eq_of_le h with hlt | heq
  · by_cases hl : rf.leaderTerm = some term <;> simp [acceptLeader, hl, hlt]
  · subst heq
    by_cases hl : rf.leaderTerm = some rf.currentTerm <;> simp [acceptLeader, hl]

/-! ### The methods, case by case -/

theorem mergeEntries_shape {rf rf' : Raft n C} {args : AppendEntriesArgs n C} {appended : Bool}
    (h : mergeEntries rf args = some (rf', appended)) :
    ∃ logs last, rf' = { rf with logs := logs, lastNewEntryIndex := last } ∧
      (appended = false → logs = rf.logs) := by
  unfold mergeEntries at h
  split at h
  · obtain ⟨rfl, rfl⟩ := by simpa using h
    exact ⟨rf.logs, rf.lastNewEntryIndex, rfl, fun _ => rfl⟩
  · dsimp only at h
    split at h
    · obtain ⟨rfl, rfl⟩ := by simpa using h
      exact ⟨rf.logs, _, rfl, fun _ => rfl⟩
    · simp only [Option.bind_eq_bind, Option.bind_eq_some_iff, Option.pure_def,
        Option.some.injEq, Prod.mk.injEq] at h
      obtain ⟨kept, _, rfl, rfl⟩ := h
      exact ⟨_, _, rfl, fun hf => absurd hf (by decide)⟩

theorem followCommit_shape (rf : Raft n C) (leaderCommit : Nat) :
    ∃ commit, rf.followCommit leaderCommit = { rf with commitIndex := commit } := by
  unfold followCommit
  split
  · exact ⟨_, rfl⟩
  · exact ⟨rf.commitIndex, rfl⟩

/-- The three ways out of `AppendEntries`. -/
theorem appendEntries_cases {rf rf' : Raft n C} {args : AppendEntriesArgs n C}
    {reply : AppendEntriesReply} (h : rf.appendEntries args = some (rf', reply)) :
    (args.term < rf.currentTerm ∧ rf' = rf ∧ reply = { term := rf.currentTerm }) ∨
    (rf.currentTerm ≤ args.term ∧ rf' = (acceptLeader rf args.term).1 ∧
      ∃ term index, checkPrev (acceptLeader rf args.term).1 args = some (.conflict term index) ∧
        reply = { term := rf.currentTerm, conflict := true, conflictTerm := term,
                  conflictIndex := index }) ∨
    (rf.currentTerm ≤ args.term ∧
      checkPrev (acceptLeader rf args.term).1 args = some .matched ∧
      reply = { term := rf.currentTerm, success := true } ∧
      ∃ rf₂ appended, mergeEntries (acceptLeader rf args.term).1 args = some (rf₂, appended) ∧
        rf' = if (acceptLeader rf args.term).2 || appended then
            (rf₂.followCommit args.leaderCommit).persist
          else rf₂.followCommit args.leaderCommit) := by
  unfold appendEntries at h
  split at h
  · obtain ⟨rfl, rfl⟩ := by simpa using h
    exact .inl ⟨‹_›, rfl, rfl⟩
  · have hle : rf.currentTerm ≤ args.term := by omega
    simp only [Option.bind_eq_bind, Option.bind_eq_some_iff] at h
    obtain ⟨check, hcheck, h⟩ := h
    cases check with
    | conflict term index =>
      obtain ⟨rfl, rfl⟩ := by simpa using h
      exact .inr (.inl ⟨hle, rfl, term, index, hcheck, rfl⟩)
    | matched =>
      simp only [Option.bind_eq_some_iff, Option.pure_def, Option.some.injEq,
        Prod.mk.injEq] at h
      obtain ⟨⟨rf₂, appended⟩, hmerge, rfl, rfl⟩ := h
      exact .inr (.inr ⟨hle, hcheck, rfl, rf₂, appended, hmerge, rfl⟩)

/-- The three ways out of `InstallSnapshot`. -/
theorem installSnapshot_cases {rf rf' : Raft n C} {args : InstallSnapshotArg n}
    {reply : InstallSnapshotReply} (h : rf.installSnapshot args = some (rf', reply)) :
    (args.term < rf.currentTerm ∧ rf' = rf ∧ reply = { term := rf.currentTerm }) ∨
    (rf.currentTerm ≤ args.term ∧ reply = { term := rf.currentTerm, success := true } ∧
      (args.lastIncludedIndex ≤ (acceptLeader rf args.term).1.snapshotLastIncludedIndex ∨
        args.lastIncludedIndex < (acceptLeader rf args.term).1.snapshotMsg.snapshotIndex) ∧
      rf' = (acceptLeader rf args.term).1.persist) ∨
    (rf.currentTerm ≤ args.term ∧ reply = { term := rf.currentTerm, success := true } ∧
      (acceptLeader rf args.term).1.snapshotLastIncludedIndex < args.lastIncludedIndex ∧
      ∃ saved, makeRaftState (acceptLeader rf args.term).1 (args.lastIncludedIndex + 1) =
          some saved ∧
        rf' = { (acceptLeader rf args.term).1 with
          snapshotMsg :=
            { snapshotValid := true
              snapshot := args.data
              snapshotTerm := args.lastIncludedTerm
              snapshotIndex := args.lastIncludedIndex }
          persister := { raftstate := some saved, snapshot := args.data }
          logs := saved.logs
          snapshotLastIncludedIndex := args.lastIncludedIndex
          snapshotLastIncludedTerm := args.lastIncludedTerm
          commitIndex := max (acceptLeader rf args.term).1.commitIndex args.lastIncludedIndex
          lastApplied := max (acceptLeader rf args.term).1.lastApplied
            args.lastIncludedIndex }) := by
  unfold installSnapshot at h
  split at h
  · obtain ⟨rfl, rfl⟩ := by simpa using h
    exact .inl ⟨‹_›, rfl, rfl⟩
  · have hle : rf.currentTerm ≤ args.term := by omega
    dsimp only at h
    split at h
    · obtain ⟨rfl, rfl⟩ := by simpa using h
      exact .inr (.inl ⟨hle, rfl, ‹_›, rfl⟩)
    · rename_i hnew
      simp only [Option.bind_eq_bind, Option.bind_eq_some_iff, Option.pure_def,
        Option.some.injEq, Prod.mk.injEq] at h
      obtain ⟨saved, hsaved, rfl, rfl⟩ := h
      exact .inr (.inr ⟨hle, rfl, by omega, saved, hsaved, rfl⟩)

/-- `makeRaftState` encodes the current term and vote. -/
theorem makeRaftState_ballot {rf : Raft n C} {upperbound : Nat} {saved : RaftState n C}
    (h : makeRaftState rf upperbound = some saved) :
    saved.currentTerm = rf.currentTerm ∧ saved.votedFor = rf.votedFor := by
  unfold makeRaftState at h
  split at h
  · cases h
    exact ⟨rfl, rfl⟩
  · split at h
    · cases h
      exact ⟨rfl, rfl⟩
    · simp only [Option.bind_eq_bind, Option.bind_eq_some_iff, Option.pure_def,
        Option.some.injEq] at h
      obtain ⟨_, _, rfl⟩ := h
      exact ⟨rfl, rfl⟩

/-! ### They are quiet -/

theorem appendEntries_quiet {rf rf' : Raft n C} {args : AppendEntriesArgs n C}
    {reply : AppendEntriesReply} (h : rf.appendEntries args = some (rf', reply)) :
    Quiet rf rf' := by
  rcases appendEntries_cases h with ⟨_, rfl, _⟩ | ⟨hle, rfl, _⟩ | ⟨hle, _, _, rf₂, appended, hm, rfl⟩
  · exact .refl _
  · exact acceptLeader_quiet rf hle
  · have hq := acceptLeader_quiet rf hle
    obtain ⟨logs, last, rfl, _⟩ := mergeEntries_shape hm
    obtain ⟨commit, hcommit⟩ := followCommit_shape
      { (acceptLeader rf args.term).1 with logs := logs, lastNewEntryIndex := last }
      args.leaderCommit
    rw [hcommit]
    split
    · apply Quiet.persist
      exact hq.congr rfl rfl rfl rfl rfl rfl
    · exact hq.congr rfl rfl rfl rfl rfl rfl

theorem installSnapshot_quiet {rf rf' : Raft n C} {args : InstallSnapshotArg n}
    {reply : InstallSnapshotReply} (h : rf.installSnapshot args = some (rf', reply)) :
    Quiet rf rf' := by
  rcases installSnapshot_cases h with
    ⟨_, rfl, _⟩ | ⟨hle, _, _, rfl⟩ | ⟨hle, _, _, saved, hsaved, rfl⟩
  · exact .refl _
  · exact (acceptLeader_quiet rf hle).persist
  · obtain ⟨hterm, hvote⟩ := makeRaftState_ballot hsaved
    obtain ⟨hme, _, hstate, hballot⟩ := acceptLeader_quiet rf hle
    refine ⟨hme, .inr ⟨hterm, hvote⟩, hstate, ?_⟩
    rcases hballot with h | h | h
    · exact .inl ⟨h.term, h.vote, h.leader⟩
    · exact .inr (.inl ⟨h.term, h.vote, h.leader, h.state⟩)
    · exact .inr (.inr ⟨h.term, h.vote, h.other, h.leader, h.state⟩)

/-- A server that does not refuse the request ends in its term. -/
theorem appendEntries_term {rf rf' : Raft n C} {args : AppendEntriesArgs n C}
    {reply : AppendEntriesReply} (h : rf.appendEntries args = some (rf', reply))
    (hle : rf.currentTerm ≤ args.term) : rf'.currentTerm = args.term := by
  rcases appendEntries_cases h with ⟨hlt, _⟩ | ⟨_, rfl, _⟩ | ⟨_, _, _, rf₂, appended, hm, rfl⟩
  · omega
  · exact acceptLeader_term rf hle
  · obtain ⟨logs, last, rfl, _⟩ := mergeEntries_shape hm
    obtain ⟨commit, hcommit⟩ := followCommit_shape
      { (acceptLeader rf args.term).1 with logs := logs, lastNewEntryIndex := last }
      args.leaderCommit
    rw [hcommit]
    split <;> exact acceptLeader_term rf hle

theorem installSnapshot_term {rf rf' : Raft n C} {args : InstallSnapshotArg n}
    {reply : InstallSnapshotReply} (h : rf.installSnapshot args = some (rf', reply))
    (hle : rf.currentTerm ≤ args.term) : rf'.currentTerm = args.term := by
  rcases installSnapshot_cases h with
    ⟨hlt, _⟩ | ⟨_, _, _, rfl⟩ | ⟨_, _, _, saved, _, rfl⟩
  · omega
  · exact acceptLeader_term rf hle
  · exact acceptLeader_term rf hle

/-- Only a leader's request of the server's own term clears a vote inside it. -/
theorem appendEntries_reset {rf rf' : Raft n C} {args : AppendEntriesArgs n C}
    {reply : AppendEntriesReply} (h : rf.appendEntries args = some (rf', reply))
    (hr : VoteReset rf rf') : args.term = rf.currentTerm := by
  by_cases hle : rf.currentTerm ≤ args.term
  · exact (appendEntries_term h hle).symm.trans hr.term
  · rcases appendEntries_cases h with ⟨_, rfl, _⟩ | ⟨hle', _⟩ | ⟨hle', _⟩
    · exact absurd hr.leader hr.other
    · exact absurd hle' hle
    · exact absurd hle' hle

theorem installSnapshot_reset {rf rf' : Raft n C} {args : InstallSnapshotArg n}
    {reply : InstallSnapshotReply} (h : rf.installSnapshot args = some (rf', reply))
    (hr : VoteReset rf rf') : args.term = rf.currentTerm := by
  by_cases hle : rf.currentTerm ≤ args.term
  · exact (installSnapshot_term h hle).symm.trans hr.term
  · rcases installSnapshot_cases h with ⟨_, rfl, _⟩ | ⟨hle', _⟩ | ⟨hle', _⟩
    · exact absurd hr.leader hr.other
    · exact absurd hle' hle
    · exact absurd hle' hle

/-- Quiet, and not by clearing a vote inside the term. -/
def Steady (rf rf' : Raft n C) : Prop :=
  Quiet rf rf' ∧ ¬ VoteReset rf rf'

theorem Steady.of_same {rf rf' : Raft n C} (hme : rf'.me = rf.me) (hs : Saved rf rf')
    (hstate : rf'.state = rf.state) (hb : SameBallot rf rf') : Steady rf rf' :=
  ⟨⟨hme, hs, .inl hstate, .inl hb⟩, fun hr => hr.other (by rw [← hb.leader, hr.leader])⟩

theorem stepDown_steady (rf : Raft n C) {term : Nat} (h : rf.currentTerm < term) :
    Steady rf (rf.stepDown term).persist :=
  ⟨(stepDown_quiet rf h).persist, fun hr => absurd hr.term (Nat.ne_of_gt h)⟩

/-- What comes of a reply to `AppendEntries`: a higher term, another `NextIndex`, or a
confirmed index. -/
theorem appendEntriesReturned_cases {rf rf' : Raft n C} {server : Fin n}
    {args : AppendEntriesArgs n C} {reply : AppendEntriesReply}
    (h : rf.appendEntriesReturned server args reply = some rf') :
    (rf.currentTerm < reply.term ∧ rf' = (rf.stepDown reply.term).persist) ∨
    (∃ next, rf' = { rf with nextIndex := next }) ∨
    (rf.currentTerm = args.term ∧ reply.success = true ∧ ∃ next, rf' = { rf with
      matchIndex := Function.update rf.matchIndex server
        (max (rf.matchIndex server) (args.prevLogIndex + args.entries.length))
      nextIndex := next }) := by
  rcases appendEntriesReturned_moves h with hdown | rfl | ⟨hterm, hok, rfl⟩ | ⟨-, next, -, rfl⟩
  · exact .inl hdown
  · exact .inr (.inl ⟨_, rfl⟩)
  · exact .inr (.inr ⟨hterm, hok, _, rfl⟩)
  · exact .inr (.inl ⟨_, rfl⟩)

/-- The same for `InstallSnapshot`. -/
theorem installSnapshotReturned_cases (rf : Raft n C) (server : Fin n)
    (args : InstallSnapshotArg n) (reply : InstallSnapshotReply) :
    (rf.currentTerm < reply.term ∧
      rf.installSnapshotReturned server args reply = (rf.stepDown reply.term).persist) ∨
    rf.installSnapshotReturned server args reply = rf ∨
    (rf.currentTerm = args.term ∧ reply.success = true ∧
      ∃ next, rf.installSnapshotReturned server args reply = { rf with
        matchIndex := Function.update rf.matchIndex server
          (max (rf.matchIndex server) args.lastIncludedIndex)
        nextIndex := next }) := by
  rcases installSnapshotReturned_moves rf server args reply with hdown | heq | ⟨hterm, hok, heq⟩
  · exact .inl hdown
  · exact .inr (.inl heq)
  · exact .inr (.inr ⟨hterm, hok, _, heq⟩)

theorem indices_steady (rf : Raft n C) (next match' : Fin n → Nat) :
    Steady rf { rf with nextIndex := next, matchIndex := match' } :=
  .of_same rfl (.inl ⟨rfl, rfl⟩) rfl ⟨rfl, rfl, rfl⟩

theorem appendEntriesReturned_steady {rf rf' : Raft n C} {server : Fin n}
    {args : AppendEntriesArgs n C} {reply : AppendEntriesReply}
    (h : rf.appendEntriesReturned server args reply = some rf') : Steady rf rf' := by
  rcases appendEntriesReturned_cases h with ⟨hlt, rfl⟩ | ⟨next, rfl⟩ | ⟨_, _, next, rfl⟩
  · exact stepDown_steady rf hlt
  · exact indices_steady rf _ rf.matchIndex
  · exact indices_steady rf _ _

theorem installSnapshotReturned_steady (rf : Raft n C) (server : Fin n)
    (args : InstallSnapshotArg n) (reply : InstallSnapshotReply) :
    Steady rf (rf.installSnapshotReturned server args reply) := by
  rcases installSnapshotReturned_cases rf server args reply with
    ⟨hlt, heq⟩ | heq | ⟨_, _, next, heq⟩ <;> rw [heq]
  · exact stepDown_steady rf hlt
  · exact indices_steady rf rf.nextIndex rf.matchIndex
  · exact indices_steady rf _ _

theorem snapshot_steady {rf rf' : Raft n C} {index : Nat} {data : Bytes}
    (h : rf.snapshot index data = some rf') : Steady rf rf' := by
  unfold snapshot at h
  split at h
  · cases h
    exact .of_same rfl (.inl ⟨rfl, rfl⟩) rfl ⟨rfl, rfl, rfl⟩
  · simp only [Option.bind_eq_bind, Option.bind_eq_some_iff, Option.pure_def,
      Option.some.injEq] at h
    obtain ⟨saved, hsaved, rfl⟩ := h
    have hballot := makeRaftState_ballot hsaved
    exact .of_same rfl (.inr hballot) rfl ⟨rfl, rfl, rfl⟩

theorem start_steady (rf : Raft n C) (command : C) : Steady rf (rf.start command).1 := by
  unfold start
  split
  · exact .of_same rfl (.inl ⟨rfl, rfl⟩) rfl ⟨rfl, rfl, rfl⟩
  · exact .of_same rfl (.inr ⟨rfl, rfl⟩) rfl ⟨rfl, rfl, rfl⟩

theorem applyLog_steady {rf rf' : Raft n C} {msgs : List (ApplyMsg C)} {last : Option Nat}
    (h : rf.applyLog = some (rf', msgs, last)) : Steady rf rf' := by
  simp only [applyLog, Option.map_eq_some_iff, Prod.mk.injEq] at h
  obtain ⟨_, _, rfl, _⟩ := h
  exact .of_same rfl (.inl ⟨rfl, rfl⟩) rfl ⟨rfl, rfl, rfl⟩

theorem applied_steady (rf : Raft n C) (last : Option Nat) : Steady rf (rf.applied last) := by
  cases last <;> exact .of_same rfl (.inl ⟨rfl, rfl⟩) rfl ⟨rfl, rfl, rfl⟩

/-- A vote is granted in the request's term, to its candidate, by a server that had
no other vote in that term; otherwise the change is steady. -/
theorem requestVote_cases (rf : Raft n C) (args : RequestVoteArgs n) :
    ((rf.requestVote args).2.voteGranted = false ∧ Steady rf (rf.requestVote args).1) ∨
    ((rf.requestVote args).2.voteGranted = true ∧ rf.currentTerm ≤ args.term ∧
      (rf.currentTerm = args.term → rf.votedFor = none ∨ rf.votedFor = some args.candidateId) ∧
      (args.lastLogTerm > rf.lastLogTerm ∨
        args.lastLogTerm = rf.lastLogTerm ∧ rf.lastLogIndex ≤ args.lastLogIndex) ∧
      (rf.requestVote args).1 =
        { (if rf.currentTerm < args.term then (rf.stepDown args.term).persist else rf) with
          votedFor := some args.candidateId }.persist) := by
  unfold requestVote
  split
  · exact .inl ⟨rfl, .of_same rfl (.inl ⟨rfl, rfl⟩) rfl ⟨rfl, rfl, rfl⟩⟩
  · rename_i hnot
    have hle : rf.currentTerm ≤ args.term := by omega
    have hsteady : Steady rf (if rf.currentTerm < args.term then (rf.stepDown args.term).persist
        else rf) := by
      split
      · exact stepDown_steady rf ‹_›
      · exact .of_same rfl (.inl ⟨rfl, rfl⟩) rfl ⟨rfl, rfl, rfl⟩
    have hlog : (if rf.currentTerm < args.term then (rf.stepDown args.term).persist
        else rf).lastLogTerm = rf.lastLogTerm ∧ (if rf.currentTerm < args.term then
          (rf.stepDown args.term).persist else rf).lastLogIndex = rf.lastLogIndex := by
      split <;> exact ⟨rfl, rfl⟩
    have hsame : rf.currentTerm = args.term →
        (if rf.currentTerm < args.term then (rf.stepDown args.term).persist else rf) = rf := by
      intro heq
      rw [if_neg (by omega)]
    dsimp only
    generalize (if rf.currentTerm < args.term then (rf.stepDown args.term).persist else rf) = rf₁
      at hsteady hlog hsame ⊢
    split
    · rename_i hfree
      split
      · exact .inl ⟨rfl, hsteady⟩
      · split
        · exact .inl ⟨rfl, hsteady⟩
        · rename_i h1 h2
          refine .inr ⟨rfl, hle, ?_, ?_, rfl⟩
          · intro heq
            rw [← hsame heq]
            exact hfree
          · rw [← hlog.1, ← hlog.2]
            omega
    · exact .inl ⟨rfl, hsteady⟩

end RaftLabs.Raft
