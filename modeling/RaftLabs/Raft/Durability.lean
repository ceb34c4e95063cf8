import RaftLabs.Raft.Safety
import RaftLabs.Raft.ServerSteps

/-! What a crash takes from a server's term.

A server saves `CurrentTerm` wherever it raises it, with one exception: `AppendEntries` returns
on a conflict before it persists. `persistsTerm` rules out that path, and then no crash brings
a server back to a lower term. -/
namespace RaftLabs.Raft
open Lib World
variable {n : Nat} {C : Type} {w w' : World n C} {i : Fin n} {act : Action n C}
  {rf rf' : Raft n C}

/-! ### Answers -/

def Args.term : Args n C → Nat
  | .requestVote args => args.term
  | .appendEntries args => args.term
  | .installSnapshot args => args.term

def Reply.term : Reply → Nat
  | .requestVote reply => reply.term
  | .appendEntries reply => reply.term
  | .installSnapshot reply => reply.term

/-- The server voted for the sender or followed it. -/
def Reply.accepts : Reply → Bool
  | .requestVote reply => reply.voteGranted
  | .appendEntries reply => reply.success || reply.conflict
  | .installSnapshot reply => reply.success

/-- The reply to a request, `none` when the handler panics. -/
def answer (rf : Raft n C) : Args n C → Option Reply
  | .requestVote args => some (.requestVote (rf.requestVote args).2)
  | .appendEntries args => (rf.appendEntries args).map fun r => .appendEntries r.2
  | .installSnapshot args => (rf.installSnapshot args).map fun r => .installSnapshot r.2

theorem requestVote_reply (rf : Raft n C) (args : RequestVoteArgs n) :
    (rf.requestVote args).2.term = rf.currentTerm ∧
      ((rf.requestVote args).2.voteGranted = true → rf.currentTerm ≤ args.term) := by
  constructor
  · simp only [requestVote, apply_ite Prod.snd, apply_ite RequestVoteReply.term, ite_self]
  · intro hgrant
    rcases requestVote_cases rf args with ⟨hno, -⟩ | ⟨-, hle, -⟩
    · rw [hno] at hgrant
      cases hgrant
    · exact hle

/-- Every answer carries the term the request found, and a request of a lower term is refused. -/
theorem answer_term {args : Args n C} {reply : Reply} (h : rf.answer args = some reply) :
    reply.term = rf.currentTerm ∧ (reply.accepts = true → rf.currentTerm ≤ args.term) := by
  cases args with
  | requestVote args =>
    cases h
    exact requestVote_reply rf args
  | appendEntries args =>
    obtain ⟨⟨rf', reply⟩, happ, rfl⟩ := Option.map_eq_some_iff.mp h
    rcases appendEntries_cases happ with ⟨-, -, rfl⟩ | ⟨hle, -, _, _, -, rfl⟩ | ⟨hle, -, rfl, -⟩
    · exact ⟨rfl, nofun⟩
    · exact ⟨rfl, fun _ => hle⟩
    · exact ⟨rfl, fun _ => hle⟩
  | installSnapshot args =>
    obtain ⟨⟨rf', reply⟩, hins, rfl⟩ := Option.map_eq_some_iff.mp h
    rcases installSnapshot_cases hins with ⟨-, -, rfl⟩ | ⟨hle, rfl, -⟩ | ⟨hle, rfl, -⟩
    · exact ⟨rfl, nofun⟩
    · exact ⟨rfl, fun _ => hle⟩
    · exact ⟨rfl, fun _ => hle⟩

/-! ### The term on disk -/

/-- The request fails the check at `PrevLogIndex`. -/
def conflicts (rf : Raft n C) (args : AppendEntriesArgs n C) : Bool :=
  match rf.checkPrev args with
  | some (.conflict _ _) => true
  | _ => false

/-- A request that raises the term passes the check. -/
def SavesHigherTerm (node : Node n C) : Args n C → Prop
  | .appendEntries args => node.raft.currentTerm < args.term → node.raft.conflicts args = false
  | .requestVote _ | .installSnapshot _ => True

instance (node : Node n C) : (args : Args n C) → Decidable (SavesHigherTerm node args)
  | .appendEntries args => inferInstanceAs (Decidable (_ < args.term → _ = false))
  | .requestVote _ | .installSnapshot _ => isTrue trivial

/-- No server follows a leader of a higher term into a conflict. -/
def persistsTerm (w : World n C) (act : Action n C) : Prop := w.handles SavesHigherTerm act

instance (w : World n C) (act : Action n C) : Decidable (persistsTerm w act) :=
  inferInstanceAs (Decidable (w.handles SavesHigherTerm act))

theorem savedTerm_acceptLeader (rf : Raft n C) (term : Nat) :
    (acceptLeader rf term).1.savedTerm = rf.savedTerm := by
  rw [acceptLeader_frame]
  rfl

/-- The term did not fall and is on disk. -/
def KeepsTerm (rf rf' : Raft n C) : Prop :=
  rf.currentTerm ≤ rf'.currentTerm ∧ rf'.savedTerm = rf'.currentTerm

theorem KeepsTerm.persist (h : rf.currentTerm ≤ rf'.currentTerm) : KeepsTerm rf rf'.persist :=
  ⟨h, rfl⟩

theorem KeepsTerm.of_eq (hsaved : rf.savedTerm = rf.currentTerm)
    (hterm : rf'.currentTerm = rf.currentTerm) (hdisk : rf'.savedTerm = rf.savedTerm) :
    KeepsTerm rf rf' :=
  ⟨Nat.le_of_eq hterm.symm, hdisk.trans (hsaved.trans hterm.symm)⟩

section Methods
variable (hsaved : rf.savedTerm = rf.currentTerm)
include hsaved

theorem requestVote_keepsTerm (args : RequestVoteArgs n) :
    KeepsTerm rf (rf.requestVote args).1 := by
  rcases requestVote_shape rf args with heq | ⟨hlt, heq⟩ | heq | ⟨hlt, heq⟩ <;> rw [heq]
  · exact .of_eq hsaved rfl rfl
  · exact .persist hlt.le
  · exact .persist (Nat.le_refl _)
  · exact .persist hlt.le

theorem acceptLeader_keepsTerm {term : Nat} (heq : rf.currentTerm = term) :
    KeepsTerm rf (acceptLeader rf term).1 :=
  .of_eq hsaved ((acceptLeader_term rf (Nat.le_of_eq heq)).trans heq.symm)
    (savedTerm_acceptLeader rf term)

theorem appendEntries_keepsTerm {args : AppendEntriesArgs n C} {reply : AppendEntriesReply}
    (hok : rf.currentTerm < args.term → rf.conflicts args = false)
    (h : rf.appendEntries args = some (rf', reply)) : KeepsTerm rf rf' := by
  rcases appendEntries_cases h with
    ⟨-, rfl, -⟩ | ⟨hle, rfl, term, index, hcheck, -⟩ | ⟨hle, -, -, rf₂, appended, hmerge, rfl⟩
  · exact .of_eq hsaved rfl rfl
  · -- a conflict: nothing is saved, so the term must not have changed
    refine acceptLeader_keepsTerm hsaved (Nat.le_antisymm hle (Nat.le_of_not_lt fun hlt => ?_))
    rw [checkPrev_acceptLeader] at hcheck
    have hno := hok hlt
    rw [conflicts, hcheck] at hno
    cases hno
  · obtain ⟨logs, last, rfl, -⟩ := mergeEntries_shape hmerge
    obtain ⟨commit, hcommit⟩ := followCommit_shape
      { (acceptLeader rf args.term).1 with logs := logs, lastNewEntryIndex := last }
      args.leaderCommit
    have hterm : (acceptLeader rf args.term).1.currentTerm = args.term := acceptLeader_term rf hle
    rw [hcommit]
    split
    · exact .persist (Nat.le_trans hle (Nat.le_of_eq hterm.symm))
    · rename_i hquiet
      have hflag : (acceptLeader rf args.term).2 = false := by
        cases hchange : (acceptLeader rf args.term).2 with
        | false => rfl
        | true => simp [hchange] at hquiet
      exact acceptLeader_keepsTerm hsaved (acceptLeader_unchanged hflag hle)

theorem installSnapshot_keepsTerm {args : InstallSnapshotArg n} {reply : InstallSnapshotReply}
    (h : rf.installSnapshot args = some (rf', reply)) : KeepsTerm rf rf' := by
  rcases installSnapshot_cases h with
    ⟨-, rfl, -⟩ | ⟨hle, -, -, rfl⟩ | ⟨hle, -, -, saved, hmake, rfl⟩
  · exact .of_eq hsaved rfl rfl
  · exact .persist (Nat.le_trans hle (Nat.le_of_eq (acceptLeader_term rf hle).symm))
  · exact ⟨Nat.le_trans hle (Nat.le_of_eq (acceptLeader_term rf hle).symm),
      (makeRaftState_ballot hmake).1⟩

theorem snapshot_keepsTerm {index : Nat} {data : Bytes} (h : rf.snapshot index data = some rf') :
    KeepsTerm rf rf' := by
  unfold snapshot at h
  split at h
  · cases h
    exact .of_eq hsaved rfl rfl
  · simp only [Option.bind_eq_bind, Option.bind_eq_some_iff, Option.pure_def,
      Option.some.injEq] at h
    obtain ⟨saved, hmake, rfl⟩ := h
    exact ⟨Nat.le_refl _, (makeRaftState_ballot hmake).1⟩

theorem start_keepsTerm (command : C) : KeepsTerm rf (rf.start command).1 := by
  unfold start
  split
  · exact .of_eq hsaved rfl rfl
  · exact .persist (Nat.le_refl _)

end Methods

theorem MethodStep.keepsTerm (h : MethodStep w i act rf') (hok : persistsTerm w act)
    (hsaved : (w.nodes i).raft.savedTerm = (w.nodes i).raft.currentTerm) :
    KeepsTerm (w.nodes i).raft rf' := by
  cases h with
  | same => exact .of_eq hsaved rfl rfl
  | election => exact .persist (Nat.le_succ _)
  | volatile => exact .of_eq hsaved rfl rfl
  | stepDown hlt => exact .persist (Nat.le_of_lt hlt)
  | requestVote => exact requestVote_keepsTerm hsaved _
  | appendEntries hk hdst hargs happ =>
    have hreq := hok.apply hk hdst
    rw [hargs] at hreq
    exact appendEntries_keepsTerm hsaved hreq happ
  | installSnapshot _ _ _ hins => exact installSnapshot_keepsTerm hsaved hins
  | start command => exact start_keepsTerm hsaved command
  | snapshot _ hsnap => exact snapshot_keepsTerm hsaved hsnap

/-- A restart resumes with the saved term, so it keeps the term as well. -/
theorem ServerStep.keepsTerm {node : Node n C} {msgs : List (ApplyMsg C)}
    (h : ServerStep w i act node msgs) (hok : persistsTerm w act)
    (hsaved : (w.nodes i).raft.savedTerm = (w.nodes i).raft.currentTerm) :
    KeepsTerm (w.nodes i).raft node.raft := by
  rcases h.raft_cases with hm | ⟨_, _, heq⟩ | ⟨-, heq⟩
  · exact hm.keepsTerm hok hsaved
  · rw [heq]
    exact .of_eq hsaved rfl rfl
  · rw [heq, make_eq]
    exact .of_eq hsaved hsaved rfl

/-- The term of every server is on disk between its steps. -/
theorem term_saved (h : (cluster n C).Reach persistsTerm w) (i : Fin n) :
    (w.nodes i).raft.savedTerm = (w.nodes i).raft.currentTerm := by
  revert i
  refine h.invariant (P := fun w => ∀ i, (w.nodes i).raft.savedTerm = (w.nodes i).raft.currentTerm)
    (fun _ => rfl) fun w act w' _ ih hok hstep i => ?_
  obtain ⟨msgs, hs, -⟩ := serverStep_of_step hstep i
  exact (hs.keepsTerm hok (ih i)).2

/-- A conflict in a higher term leaves the old term on disk. -/
theorem appendEntries_conflict {args : AppendEntriesArgs n C} (hle : rf.currentTerm ≤ args.term)
    (hconf : rf.conflicts args = true) :
    ∃ reply, rf.appendEntries args = some ((acceptLeader rf args.term).1, reply) := by
  unfold conflicts at hconf
  split at hconf
  · rename_i term index hcheck
    rw [← checkPrev_acceptLeader rf args.term] at hcheck
    unfold appendEntries
    rw [if_neg (Nat.not_lt.mpr hle)]
    simp only [hcheck, Option.bind_eq_bind, Option.bind_some]
    exact ⟨_, rfl⟩
  · cases hconf

theorem restart_currentTerm (w : World n C) (i : Fin n) :
    ((w.restart i).nodes i).raft.currentTerm = (w.nodes i).raft.savedTerm := by
  rw [World.restart, setNode_self]
  show (make i (w.nodes i).raft.persister).currentTerm = _
  rw [make_eq]

/-- A server that follows a leader into a conflict has the new term in memory only. -/
theorem handle_conflict {k : Nat} {c : Call n C} {args : AppendEntriesArgs n C}
    (hargs : c.args = .appendEntries args) (hle : (w.nodes c.dst).raft.currentTerm ≤ args.term)
    (hconf : (w.nodes c.dst).raft.conflicts args = true) :
    ((w.handle k c).nodes c.dst).raft.currentTerm = args.term ∧
      ((w.handle k c).nodes c.dst).raft.savedTerm = (w.nodes c.dst).raft.savedTerm := by
  obtain ⟨reply, happ⟩ := appendEntries_conflict hle hconf
  have hraft : ((w.handle k c).nodes c.dst).raft =
      (acceptLeader (w.nodes c.dst).raft args.term).1 := by
    simp [World.handle, hargs, happ, World.setRaft, World.setNode, World.advance, World.setCall]
  rw [hraft]
  exact ⟨acceptLeader_term _ hle, savedTerm_acceptLeader _ _⟩

/-- Later states know no lower terms. -/
theorem currentTerm_le (h : (cluster n C).Reach persistsTerm w)
    (hlater : ((cluster n C).startingAt w).Reach persistsTerm w') (i : Fin n) :
    (w.nodes i).raft.currentTerm ≤ (w'.nodes i).raft.currentTerm := by
  induction hlater with
  | init => exact Nat.le_refl _
  | step hlater hok hstep ih =>
    obtain ⟨msgs, hs, -⟩ := serverStep_of_step hstep i
    have hsaved := term_saved (System.reach_startingAt h hlater) i
    exact Nat.le_trans ih (hs.keepsTerm hok hsaved).1

/-- **Durable terms.** In a run in which no server follows a leader of a higher term into a
conflict, no server falls below a term it had after any step, crashes included, and it answers
in no lower term and accepts no request of one. A further step leaves every server's term on
disk exactly when it is such a step. -/
theorem term_durable (h : (cluster n C).Reach persistsTerm w) :
    (∀ w', ((cluster n C).startingAt w).Reach persistsTerm w' → ∀ i,
      (w.nodes i).raft.currentTerm ≤ (w'.nodes i).raft.currentTerm ∧
      ∀ args reply, (w'.nodes i).raft.answer args = some reply →
        (w.nodes i).raft.currentTerm ≤ reply.term ∧
        (reply.accepts = true → (w.nodes i).raft.currentTerm ≤ args.term)) ∧
    ∀ act w', (cluster n C).step w act = some w' → (persistsTerm w act ↔ ∀ i,
      (w'.nodes i).raft.currentTerm ≤ ((w'.restart i).nodes i).raft.currentTerm) := by
  refine ⟨fun w' hlater i => ?_, fun act w' hstep => ⟨fun hok i => ?_, fun hkept => ?_⟩⟩
  · have hle := currentTerm_le h hlater i
    refine ⟨hle, fun args reply hanswer => ?_⟩
    obtain ⟨hterm, haccepts⟩ := answer_term hanswer
    exact ⟨hterm ▸ hle, fun ha => Nat.le_trans hle (haccepts ha)⟩
  · rw [restart_currentTerm]
    exact Nat.le_of_eq (term_saved (.step h hok hstep) i).symm
  · by_contra hnot
    obtain ⟨k, c, rfl, hk, rfl, hbad⟩ := not_handles hstep hnot
    cases hargs : c.args with
    | requestVote args => exact hbad (hargs ▸ trivial)
    | installSnapshot args => exact hbad (hargs ▸ trivial)
    | appendEntries args =>
      rw [hargs, SavesHigherTerm, Classical.not_imp, Bool.not_eq_false] at hbad
      obtain ⟨hterm, hdisk⟩ := handle_conflict (k := k) hargs (Nat.le_of_lt hbad.1) hbad.2
      have hfell := hkept c.dst
      rw [restart_currentTerm, hterm, hdisk, term_saved h] at hfell
      exact absurd hfell (Nat.not_le.mpr hbad.1)

/-- Server `i` leads term 1 and its last peer follows it. -/
def followLeader (i : Fin n) : List (Action n Nat) :=
  [.electionTimeout i, .handle 0, .ret 0, .handle 3]

theorem followLeader_runs :
    (((cluster 3 Nat).runWhere persistsTerm (cluster 3 Nat).init (followLeader 0)).map fun w =>
      decide ((w.nodes 2).raft.currentTerm = 1)) = some true := by
  decide +kernel

theorem term_durable_followLeader : ∃ w : World 3 Nat, (cluster 3 Nat).Reach persistsTerm w ∧
    (w.nodes 2).raft.currentTerm = 1 ∧ 1 ≤ ((w.restart 2).nodes 2).raft.currentTerm := by
  obtain ⟨w, hrun, hterm⟩ := Option.map_eq_some_iff.mp followLeader_runs
  have hreach := System.reach_runWhere .init _ hrun
  have hrestart : ((cluster 3 Nat).startingAt w).Reach persistsTerm (w.restart 2) :=
    .step (a := .restart 2) .init trivial rfl
  have hone := of_decide_eq_true hterm
  exact ⟨w, hreach, hone, hone ▸ ((term_durable hreach).1 _ hrestart 2).1⟩

/-- Server `i` replicates an entry to server `j`, which then leads term 2. Its heartbeat names the
entry as the predecessor, which the third server does not have. -/
def conflictingHeartBeat (i j : Fin n) : List (Action n Nat) :=
  [.electionTimeout i, .handle 0, .ret 0, .start i 10, .replicateLog i j 1, .handle 4,
   .electionTimeout j, .handle 5, .ret 5, .handle 8]

theorem conflictingHeartBeat_runs :
    (((cluster 3 Nat).run (cluster 3 Nat).init (conflictingHeartBeat 0 1)).map fun w =>
      decide ((w.nodes 2).raft.currentTerm = 2 ∧
        ((w.restart 2).nodes 2).raft.currentTerm = 0)) = some true := by
  decide +kernel

/-- With any step allowed, a restart can lose a term. -/
theorem term_lost : ¬ ∀ w w' : World 3 Nat, (cluster 3 Nat).Reach System.anyStep w →
    ((cluster 3 Nat).startingAt w).Reach System.anyStep w' → ∀ i,
      (w.nodes i).raft.currentTerm ≤ (w'.nodes i).raft.currentTerm := by
  intro hall
  obtain ⟨w, hrun, hterms⟩ := Option.map_eq_some_iff.mp conflictingHeartBeat_runs
  obtain ⟨htwo, hzero⟩ := of_decide_eq_true hterms
  have hreach : (cluster 3 Nat).Reach System.anyStep w :=
    System.reach_run .init (fun _ _ => trivial) _ hrun
  have hle := hall w (w.restart 2) hreach (.step (a := .restart 2) .init trivial rfl) 2
  omega

end RaftLabs.Raft
