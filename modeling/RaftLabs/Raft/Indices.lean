import RaftLabs.Raft.Merging
import RaftLabs.Raft.Safety
import RaftLabs.Raft.ServerSteps

/-! `CommitIndex`, `LastApplied` and `SnapshotLastIncludedIndex` over a run.

Every method but one moves these indices with a maximum. `AppendEntries` assigns
`min(LeaderCommit, LastNewEntryIndex)` to `CommitIndex` without one, and
`LastNewEntryIndex` is not moved when `InstallSnapshot` raises `CommitIndex`. A request
of the same leader can then find `CommitIndex` above `LastNewEntryIndex` and set it
back, below the snapshot. `Verifies` is the exact condition under which a request of a
timely run does not. -/
namespace RaftLabs.Raft
open Lib World
variable {n : Nat} {C : Type} {w w' : World n C} {rf rf' : Raft n C} {i : Fin n}
  {act : Action n C}

/-! ### The commit rule of `AppendEntries` -/

/-- A request of the leader that the server knows already, and that makes it follow the
leader's commit index, finds everything up to `CommitIndex` verified or verifies it. -/
def Verifies (rf : Raft n C) (args : AppendEntriesArgs n C) : Prop :=
  args.term = rf.currentTerm → rf.leaderTerm = some args.term →
  checkPrev rf args = some .matched → rf.commitIndex < args.leaderCommit →
  rf.commitIndex ≤ rf.lastNewEntryIndex ∨
    args.entries ≠ [] ∧ rf.commitIndex ≤ args.prevLogIndex + args.entries.length

instance (rf : Raft n C) (args : AppendEntriesArgs n C) : Decidable (Verifies rf args) :=
  inferInstanceAs (Decidable (_ → _ → _ → _ → _))

/-- A new leader's term resets the verified index to `CommitIndex`. -/
theorem acceptLeader_resets (rf : Raft n C) {term : Nat} (hle : rf.currentTerm ≤ term)
    (h : ¬ (term = rf.currentTerm ∧ rf.leaderTerm = some term)) :
    (acceptLeader rf term).1.lastNewEntryIndex = rf.commitIndex := by
  rcases acceptLeader_lastNewEntryIndex rf hle with heq | ⟨hterm, hleader, -⟩
  · exact heq
  · exact absurd ⟨hterm.symm, hleader⟩ h

theorem acceptLeader_known (rf : Raft n C) {term : Nat} (hterm : term = rf.currentTerm)
    (hleader : rf.leaderTerm = some term) :
    (acceptLeader rf term).1.lastNewEntryIndex = rf.lastNewEntryIndex := by
  simp [acceptLeader, hleader, hterm]

/-- How far a merge has verified the log. -/
theorem mergeEntries_lastNewEntryIndex {args : AppendEntriesArgs n C} {appended : Bool}
    (h : mergeEntries rf args = some (rf', appended)) :
    rf'.commitIndex = rf.commitIndex ∧ rf'.lastNewEntryIndex =
      if args.entries = [] then rf.lastNewEntryIndex
      else max rf.lastNewEntryIndex (args.prevLogIndex + args.entries.length) := by
  rcases mergeEntries_cases h with
    ⟨hnil, rfl, -⟩ | ⟨m, -, hne, -, ⟨-, -, rfl⟩ | ⟨-, -, -, -, -, rfl⟩⟩
  · simp [hnil]
  · simp [hne]
  · simp [hne]

theorem followCommit_commitIndex (rf : Raft n C) (leaderCommit : Nat) :
    (rf.followCommit leaderCommit).commitIndex =
      if rf.commitIndex < leaderCommit then min leaderCommit rf.lastNewEntryIndex
      else rf.commitIndex := by
  unfold followCommit
  split <;> rfl

/-- `AppendEntries` keeps `CommitIndex` from falling exactly when the request verifies. -/
theorem appendEntries_commitIndex {args : AppendEntriesArgs n C} {reply : AppendEntriesReply}
    (h : rf.appendEntries args = some (rf', reply)) :
    rf.commitIndex ≤ rf'.commitIndex ↔ Verifies rf args := by
  rcases appendEntries_cases h with
    ⟨hlt, rfl, -⟩ | ⟨hle, rfl, term, index, hcheck, -⟩ |
    ⟨hle, hcheck, -, rf₂, appended, hmerge, rfl⟩
  · exact iff_of_true (Nat.le_refl _) fun hterm => by omega
  · rw [checkPrev_acceptLeader] at hcheck
    refine iff_of_true (by rw [acceptLeader_frame]) fun _ _ hmatched => ?_
    rw [hcheck] at hmatched
    cases hmatched
  · rw [checkPrev_acceptLeader] at hcheck
    obtain ⟨hcommit, hlast⟩ := mergeEntries_lastNewEntryIndex hmerge
    have hcommit' : rf₂.commitIndex = rf.commitIndex := by
      rw [hcommit, acceptLeader_frame]
    have hfinal : (if (acceptLeader rf args.term).2 || appended then
          (rf₂.followCommit args.leaderCommit).persist
        else rf₂.followCommit args.leaderCommit).commitIndex =
          if rf.commitIndex < args.leaderCommit then min args.leaderCommit rf₂.lastNewEntryIndex
          else rf.commitIndex := by
      rw [← hcommit', ← followCommit_commitIndex]
      split <;> rfl
    rw [hfinal, hlast]
    by_cases hknown : args.term = rf.currentTerm ∧ rf.leaderTerm = some args.term
    · have hverifies : Verifies rf args ↔ (rf.commitIndex < args.leaderCommit →
          rf.commitIndex ≤ rf.lastNewEntryIndex ∨
            args.entries ≠ [] ∧ rf.commitIndex ≤ args.prevLogIndex + args.entries.length) :=
        ⟨fun h => h hknown.1 hknown.2 hcheck, fun h _ _ _ => h⟩
      rw [acceptLeader_known rf hknown.1 hknown.2, hverifies]
      by_cases hbehind : rf.commitIndex < args.leaderCommit <;> by_cases hnil : args.entries = []
      · simp [hbehind, hnil]
        omega
      · simp [hbehind, hnil]
        omega
      · simp [hbehind]
      · simp [hbehind]
    · rw [acceptLeader_resets rf hle hknown]
      refine iff_of_true ?_ fun hterm hleader => absurd ⟨hterm, hleader⟩ hknown
      by_cases hnil : args.entries = [] <;> simp only [hnil, if_true, if_false] <;> split <;> omega

/-! ### What the methods do to the indices -/

/-- No index falls. -/
structure Advances (rf rf' : Raft n C) : Prop where
  commit : rf.commitIndex ≤ rf'.commitIndex
  applied : rf.lastApplied ≤ rf'.lastApplied
  snap : rf.snapshotLastIncludedIndex ≤ rf'.snapshotLastIncludedIndex

/-- The snapshot is of what was applied. -/
def Applied (rf : Raft n C) : Prop := rf.snapshotLastIncludedIndex ≤ rf.lastApplied

/-- The snapshot is of what was committed. -/
def Committed (rf : Raft n C) : Prop := rf.snapshotLastIncludedIndex ≤ rf.commitIndex

/-- What a step does to the indices: nothing falls but possibly `CommitIndex`, and when
that does not fall either, the snapshot stays of committed entries. -/
structure Moves (rf rf' : Raft n C) : Prop where
  applied : rf.lastApplied ≤ rf'.lastApplied
  snap : rf.snapshotLastIncludedIndex ≤ rf'.snapshotLastIncludedIndex
  stays : Applied rf → Applied rf'
  commits : rf.commitIndex ≤ rf'.commitIndex → Committed rf → Committed rf'

theorem Rewrites.moves {logs : List (RaftLogEntry C)} (h : Rewrites rf rf' logs) :
    Moves rf rf' where
  applied := Nat.le_of_eq h.applied.symm
  snap := Nat.le_of_eq h.snap.symm
  stays hle := by
    rw [Applied, h.snap, h.applied]
    exact hle
  commits hcommit hle := by
    rw [Committed, h.snap]
    exact Nat.le_trans hle hcommit

theorem compacted_moves (hcont : Contiguous rf.snapshotLastIncludedIndex rf.logs) {index : Nat}
    {data : Bytes} {saved : RaftState n C} (hmake : rf.makeRaftState (index + 1) = some saved) :
    Moves rf (rf.compacted index data saved) := by
  obtain ⟨-, hsnap, -⟩ := makeRaftState_log hmake hcont
  constructor <;> simp only [compacted, hsnap, Applied, Committed] <;> omega

theorem installed_moves {args : InstallSnapshotArg n} {saved : RaftState n C}
    (hinst : Installs rf args) : Moves rf (rf.installed args saved) := by
  obtain ⟨-, hsnap, -⟩ := hinst
  constructor <;> simp only [installed, Applied, Committed] <;> omega

theorem LogStep.moves (h : LogStep w i act rf')
    (hcont : Contiguous (w.nodes i).raft.snapshotLastIncludedIndex (w.nodes i).raft.logs) :
    Moves (w.nodes i).raft rf' := by
  cases h with
  | kept h => exact h.moves
  | merged _ _ _ _ _ _ _ h => exact h.moves
  | added h => exact h.moves
  | compacted _ _ hmake => exact compacted_moves hcont hmake
  | installed _ _ _ hinst _ => exact installed_moves hinst

theorem requestVote_commitIndex (rf : Raft n C) (args : RequestVoteArgs n) :
    (rf.requestVote args).1.commitIndex = rf.commitIndex := by
  rcases requestVote_shape rf args with heq | ⟨-, heq⟩ | heq | ⟨-, heq⟩ <;> rw [heq] <;> rfl

theorem start_commitIndex (rf : Raft n C) (command : C) :
    (rf.start command).1.commitIndex = rf.commitIndex := by
  unfold Raft.start
  split <;> rfl

/-- `CommitIndex` falls in `AppendEntries` only. -/
theorem MethodStep.commitIndex (h : MethodStep w i act rf') :
    (w.nodes i).raft.commitIndex ≤ rf'.commitIndex ∨
    ∃ k c args reply, act = .handle k ∧ w.calls[k]? = some c ∧ c.dst = i ∧
      c.args = .appendEntries args ∧ (w.nodes i).raft.appendEntries args = some (rf', reply) := by
  cases h with
  | same => exact .inl (Nat.le_refl _)
  | election => exact .inl (Nat.le_refl _)
  | volatile _ _ _ _ hcommit => exact .inl hcommit
  | stepDown => exact .inl (Nat.le_refl _)
  | requestVote => exact .inl (Nat.le_of_eq (requestVote_commitIndex _ _).symm)
  | appendEntries hk hdst hargs happ => exact .inr ⟨_, _, _, _, rfl, hk, hdst, hargs, happ⟩
  | @installSnapshot k c args rf' reply hk hdst hargs hins =>
    refine .inl ?_
    by_cases hinst : Installs (w.nodes i).raft args
    · rw [installSnapshot_of_installs hinst, Option.map_eq_some_iff] at hins
      obtain ⟨saved, -, heq⟩ := hins
      cases heq
      exact Nat.le_max_left _ _
    · rcases installSnapshot_of_not_installs hinst hins with rfl | ⟨-, rfl⟩
      · exact Nat.le_refl _
      · rw [acceptLeader_frame]
        exact Nat.le_refl _
  | start command => exact .inl (Nat.le_of_eq (start_commitIndex _ command).symm)
  | snapshot _ hsnap =>
    refine .inl ?_
    unfold Raft.snapshot at hsnap
    split at hsnap
    · cases hsnap
      exact Nat.le_refl _
    · simp only [Option.bind_eq_bind, Option.bind_eq_some_iff, Option.pure_def,
        Option.some.injEq] at hsnap
      obtain ⟨saved, -, rfl⟩ := hsnap
      exact Nat.le_max_left _ _

theorem Moves.of_applied {msg : ApplyMsg C} {last : Nat} (h : rf.lastApplied ≤ last) :
    Moves rf { rf with snapshotMsg := msg, lastApplied := last } :=
  ⟨h, Nat.le_refl _, fun hle => Nat.le_trans hle h, fun _ hle => hle⟩

/-- One server's step without a restart. -/
theorem ServerStep.moves {node : Node n C} {msgs : List (ApplyMsg C)}
    (h : ServerStep w i act node msgs) (hfree : crashFree w act)
    (hcont : Contiguous (w.nodes i).raft.snapshotLastIncludedIndex (w.nodes i).raft.logs) :
    Moves (w.nodes i).raft node.raft ∧
    ((w.nodes i).raft.commitIndex ≤ node.raft.commitIndex ∨
    ∃ k c args reply, act = .handle k ∧ w.calls[k]? = some c ∧ c.dst = i ∧
      c.args = .appendEntries args ∧
      (w.nodes i).raft.appendEntries args = some (node.raft, reply)) := by
  cases h with
  | method hm => exact ⟨hm.logStep.moves hcont, hm.commitIndex⟩
  | applyTake _ htake =>
    obtain ⟨_, _, heq⟩ := Option.map_eq_some_iff.mp htake
    cases heq
    exact ⟨.of_applied (Nat.le_refl _), .inl (Nat.le_refl _)⟩
  | applySend => exact ⟨.of_applied (Nat.le_refl _), .inl (Nat.le_refl _)⟩
  | @applyDone last =>
    cases last with
    | none => exact ⟨.of_applied (Nat.le_refl _), .inl (Nat.le_refl _)⟩
    | some last => exact ⟨.of_applied (Nat.le_max_left _ _), .inl (Nat.le_refl _)⟩
  | restart => cases hfree

/-! ### Every run without a crash -/

/-- When the request is an `AppendEntries`, it verifies what is committed. -/
def VerifiesRequest (node : Node n C) : Args n C → Prop
  | .appendEntries args => Verifies node.raft args
  | .requestVote _ | .installSnapshot _ => True

instance (node : Node n C) : (args : Args n C) → Decidable (VerifiesRequest node args)
  | .appendEntries args => inferInstanceAs (Decidable (Verifies node.raft args))
  | .requestVote _ | .installSnapshot _ => isTrue trivial

/-- The step restarts no server, and a request it handles verifies what is committed. -/
def verifiesCommit (w : World n C) (act : Action n C) : Prop :=
  crashFree w act ∧ w.handles VerifiesRequest act

instance (w : World n C) (act : Action n C) : Decidable (verifiesCommit w act) :=
  inferInstanceAs (Decidable (_ ∧ _))

/-- No index of any server falls. -/
def IndicesAdvance (w w' : World n C) : Prop :=
  ∀ i, Advances (w.nodes i).raft (w'.nodes i).raft

theorem moves_of_step (h : (cluster n C).Reach crashFree w) (hfree : crashFree w act)
    (hstep : (cluster n C).step w act = some w') (i : Fin n) :
    Moves (w.nodes i).raft (w'.nodes i).raft ∧
    ((w.nodes i).raft.commitIndex ≤ (w'.nodes i).raft.commitIndex ∨
    ∃ k c args reply, act = .handle k ∧ w.calls[k]? = some c ∧ c.dst = i ∧
      c.args = .appendEntries args ∧
      (w.nodes i).raft.appendEntries args = some ((w'.nodes i).raft, reply)) := by
  obtain ⟨-, a, hs, hrel⟩ := implements_reach (recovers_of_crashFree h)
  obtain ⟨msgs, hserver, -⟩ := serverStep_of_step hstep i
  exact hserver.moves hfree (hrel.contiguous hs i)

/-- A request that verifies lets no index fall. -/
theorem advance_of_verifies (h : (cluster n C).Reach crashFree w) (hok : verifiesCommit w act)
    (hstep : (cluster n C).step w act = some w') : IndicesAdvance w w' := by
  intro i
  obtain ⟨hmoves, hcommit⟩ := moves_of_step h hok.1 hstep i
  refine ⟨?_, hmoves.applied, hmoves.snap⟩
  rcases hcommit with hle | ⟨k, c, args, reply, rfl, hk, hdst, hargs, happ⟩
  · exact hle
  · have hverifies := hok.2.apply hk hdst
    rw [hargs] at hverifies
    exact (appendEntries_commitIndex happ).mpr hverifies

/-- A server always answers an `AppendEntries`. -/
theorem handle_appendEntries {k : Nat} {c : Call n C} {args : AppendEntriesArgs n C}
    (hk : w.calls[k]? = some c) (hargs : c.args = .appendEntries args)
    (hstep : (cluster n C).step w (.handle k) = some w') :
    ∃ reply, (w.nodes c.dst).raft.appendEntries args = some ((w'.nodes c.dst).raft, reply) := by
  obtain ⟨rf', reply, happ⟩ := appendEntries_total (w.nodes c.dst).raft args
  refine ⟨reply, ?_⟩
  simp only [cluster, step, hk] at hstep
  split at hstep
  · simp only [Option.ite_none_right_eq_some, Option.some.injEq] at hstep
    obtain ⟨-, rfl⟩ := hstep
    simp [World.handle, hargs, happ, World.setRaft, World.setNode, World.advance, World.setCall]
  · cases hstep

/-- Any other request sets `CommitIndex` back. -/
theorem verifies_of_advance (hfree : crashFree w act)
    (hstep : (cluster n C).step w act = some w') (hadv : IndicesAdvance w w') :
    verifiesCommit w act := by
  refine ⟨hfree, ?_⟩
  by_contra hnot
  obtain ⟨k, c, rfl, hk, -, hbad⟩ := not_handles hstep hnot
  cases hargs : c.args with
  | requestVote args => exact hbad (hargs ▸ trivial)
  | installSnapshot args => exact hbad (hargs ▸ trivial)
  | appendEntries args =>
    rw [hargs] at hbad
    obtain ⟨reply, happ⟩ := handle_appendEntries hk hargs hstep
    exact hbad ((appendEntries_commitIndex happ).mp (hadv c.dst).commit)

theorem crashFree_of_verifiesCommit (h : (cluster n C).Reach verifiesCommit w) :
    (cluster n C).Reach crashFree w :=
  h.mono fun _ _ _ _ hok => hok.1

theorem recovers_of_verifiesCommit (h : (cluster n C).Reach verifiesCommit w) :
    (cluster n C).Reach recovers w :=
  recovers_of_crashFree (crashFree_of_verifiesCommit h)

/-- The snapshot of a server is of applied and committed entries. -/
theorem snapshot_le_of_verifiesCommit (h : (cluster n C).Reach verifiesCommit w) (i : Fin n) :
    (w.nodes i).raft.snapshotLastIncludedIndex ≤ (w.nodes i).raft.lastApplied ∧
      (w.nodes i).raft.snapshotLastIncludedIndex ≤ (w.nodes i).raft.commitIndex := by
  refine System.Reach.invariant (P := fun w => Applied (w.nodes i).raft ∧ Committed (w.nodes i).raft)
    ⟨Nat.le_refl _, Nat.le_refl _⟩ (fun w act w' hreach hinv hok hstep => ?_) h
  have hfree := crashFree_of_verifiesCommit hreach
  obtain ⟨hmoves, -⟩ := moves_of_step hfree hok.1 hstep i
  exact ⟨hmoves.stays hinv.1,
    hmoves.commits (advance_of_verifies hfree hok hstep i).commit hinv.2⟩

/-- **Indices never go back.** In every timely run without a crash whose requests verify what is
committed, the snapshot of every server is of applied and committed entries, and a further
step lets no index fall exactly when its request verifies, too. -/
theorem indices_advance {x : InMemory (World n C) n C}
    (h : (processes n C).Reach (timely verifiesCommit) x) :
    (∀ i, (x.state.nodes i).raft.snapshotLastIncludedIndex ≤ (x.state.nodes i).raft.lastApplied ∧
      (x.state.nodes i).raft.snapshotLastIncludedIndex ≤ (x.state.nodes i).raft.commitIndex) ∧
    ∀ a x', timely crashFree x a → (processes n C).step x a = some x' →
      (IndicesAdvance x.state x'.state ↔ verifiesCommit x.state a.act) := by
  have hreach := reach_of_timely (fun _ => recovers_of_verifiesCommit) h
  refine ⟨snapshot_le_of_verifiesCommit hreach, fun a x' hok hstep => ?_⟩
  have hstep := step_of_timely (fun _ => recovers_of_verifiesCommit) h hok.2 hstep
  exact ⟨verifies_of_advance hok.1 hstep, fun hverifies =>
    advance_of_verifies (crashFree_of_verifiesCommit hreach) hverifies hstep⟩

/-- Whatever the requests, `LastApplied` and the snapshot never go back. -/
theorem applied_advances {x : InMemory (World n C) n C}
    (h : (processes n C).Reach (timely crashFree) x) :
    (∀ i, (x.state.nodes i).raft.snapshotLastIncludedIndex ≤
      (x.state.nodes i).raft.lastApplied) ∧
    ∀ a x', timely crashFree x a → (processes n C).step x a = some x' → ∀ i,
      (x.state.nodes i).raft.lastApplied ≤ (x'.state.nodes i).raft.lastApplied ∧
      (x.state.nodes i).raft.snapshotLastIncludedIndex ≤
        (x'.state.nodes i).raft.snapshotLastIncludedIndex := by
  have hreach := reach_of_timely (fun _ => recovers_of_crashFree) h
  refine ⟨fun i => ?_, fun a x' hok hstep i => ?_⟩
  · refine System.Reach.invariant (P := fun w => Applied (w.nodes i).raft) (Nat.le_refl _)
      (fun w act w' hreach hinv hfree hstep => ?_) hreach
    exact (moves_of_step hreach hfree hstep i).1.stays hinv
  · have hstep := step_of_timely (fun _ => recovers_of_crashFree) h hok.2 hstep
    obtain ⟨hmoves, -⟩ := moves_of_step hreach hok.1 hstep i
    exact ⟨hmoves.applied, hmoves.snap⟩

/-- Server `i` leads term 1 and commits an entry with server `j`; server `k`, which has
heard of the leader, takes over its snapshot of that entry. Server `i` then commits a
second entry. -/
def installThenCommit (i j k : Fin n) : List (Action n Nat) :=
  [.electionTimeout i, .handle 0, .ret 0, .handle 3, .start i 10, .replicateLog i j 1, .handle 4,
   .ret 4, .updateCommitIndex i 1, .applyTake i, .applySend i, .applyDone i, .snapshot i 1 [],
   .replicateLog i k 1, .handle 5, .ret 5, .start i 11, .replicateLog i j 1, .handle 6, .ret 6,
   .updateCommitIndex i 1, .heartBeat i]

theorem installThenCommit_runs :
    (((processes 3 Nat).runWhere (timely verifiesCommit) (processes 3 Nat).init
        (scheduled [] (installThenCommit 0 1 2))).map fun x =>
      decide ((x.state.nodes 2).raft.snapshotLastIncludedIndex = 1 ∧
        (x.state.nodes 2).raft.commitIndex = 1 ∧ (x.state.nodes 2).raft.lastNewEntryIndex = 0)) =
      some true := by
  decide +kernel

theorem indices_advance_installThenCommit : ∃ x : InMemory (World 3 Nat) 3 Nat,
    (processes 3 Nat).Reach (timely verifiesCommit) x ∧
    (x.state.nodes 2).raft.snapshotLastIncludedIndex = 1 ∧
    (∀ i, (x.state.nodes i).raft.snapshotLastIncludedIndex ≤ (x.state.nodes i).raft.lastApplied ∧
      (x.state.nodes i).raft.snapshotLastIncludedIndex ≤ (x.state.nodes i).raft.commitIndex) ∧
    ∀ a x', timely crashFree x a → (processes 3 Nat).step x a = some x' →
      (IndicesAdvance x.state x'.state ↔ verifiesCommit x.state a.act) := by
  obtain ⟨x, hreach, hev⟩ := System.exists_reach_of_runWhere installThenCommit_runs
  exact ⟨x, hreach, hev.1, indices_advance hreach⟩

/-- The heartbeat that brings the leader's commit index to server 2. -/
theorem installThenCommit_falls :
    (((processes 3 Nat).runWhere (timely crashFree) (processes 3 Nat).init
        (scheduled [] (installThenCommit 0 1 2))).bind fun x =>
      ((processes 3 Nat).step x ⟨.handle 8, [], 0⟩).map fun x' =>
        decide (timely crashFree x ⟨.handle 8, [], 0⟩ ∧
          (x.state.nodes 2).raft.commitIndex = 1 ∧ (x'.state.nodes 2).raft.commitIndex = 0 ∧
          (x'.state.nodes 2).raft.snapshotLastIncludedIndex = 1)) = some true := by
  decide +kernel

/-- Without the condition a heartbeat takes `CommitIndex` back, below the snapshot. -/
theorem indices_fall : ¬ ∀ x : InMemory (World 3 Nat) 3 Nat,
    (processes 3 Nat).Reach (timely crashFree) x →
    (∀ i, (x.state.nodes i).raft.snapshotLastIncludedIndex ≤ (x.state.nodes i).raft.lastApplied ∧
      (x.state.nodes i).raft.snapshotLastIncludedIndex ≤ (x.state.nodes i).raft.commitIndex) ∧
    ∀ a x', timely crashFree x a → (processes 3 Nat).step x a = some x' →
      IndicesAdvance x.state x'.state := by
  intro hall
  obtain ⟨x, hrun, hev⟩ := Option.bind_eq_some_iff.mp installThenCommit_falls
  obtain ⟨x', hstep, hev⟩ := Option.map_eq_some_iff.mp hev
  obtain ⟨hok, hbefore, hafter, -⟩ := of_decide_eq_true hev
  have hreach := System.reach_runWhere .init _ hrun
  have hcommit := ((hall x hreach).2 ⟨.handle 8, [], 0⟩ x' hok hstep 2).commit
  rw [hbefore, hafter] at hcommit
  exact absurd hcommit (by decide)

theorem skipping_snapshot :
    (((processes 7 Nat).runWhere (anytime verifiesCommit) (processes 7 Nat).init
        (List.flatten [skipping 0 1 2 3 4 5, scheduled [] [.snapshot 4 3 []]])).map fun x =>
      decide ((x.state.nodes 4).raft.snapshotLastIncludedIndex = 4 ∧
        (x.state.nodes 4).raft.commitIndex = 3)) = some true := by
  decide +kernel

/-- And in a log with a gap, `Snapshot` cuts off more than is committed. -/
theorem indices_fall_of_shifted : ¬ ∀ x : InMemory (World 7 Nat) 7 Nat,
    (processes 7 Nat).Reach (anytime verifiesCommit) x → ∀ i,
      (x.state.nodes i).raft.snapshotLastIncludedIndex ≤ (x.state.nodes i).raft.commitIndex := by
  intro hall
  obtain ⟨x, hreach, hsnap, hcommit⟩ := System.exists_reach_of_runWhere skipping_snapshot
  have hle := hall x hreach 4
  rw [hsnap, hcommit] at hle
  exact absurd hle (by decide)

end RaftLabs.Raft
