import RaftLabs.Raft.Bookkeeping

/-! No access out of range.

`applyLog`, `replicateLog` and `sendHeartBeat` compute positions in `Logs` by subtracting
`SnapshotLastIncludedIndex` from indices that other steps move. They stay inside because the log
is contiguous, committed entries are never cut off, and `NextIndex` never runs ahead of the
leader's log. With what is known of the handlers, no server ever panics in a timely run without a
crash. -/
namespace RaftLabs.Raft
open Lib World
variable {n : Nat} {C : Type} {w w' : World n C} {i : Fin n} {act : Action n C} {rf : Raft n C}
  {s : Fin n}

/-! ### Slices and positions -/

theorem at?_isSome {α : Type} {l : List α} {p : Int} (hlow : 0 ≤ p) (hhigh : p < l.length) :
    (at? l p).isSome = true := by
  have hlt : p.toNat < l.length := by omega
  simp [at?, hlow, hlt]

theorem slice?_isSome {α : Type} {l : List α} {lo hi : Int} (hlow : 0 ≤ lo) (hle : lo ≤ hi)
    (hhigh : hi ≤ l.length) : (slice? l lo hi).isSome = true := by
  simp [slice?, hlow, hle, hhigh]

theorem applyLogs_isSome (hsnap : rf.snapshotLastIncludedIndex ≤ rf.lastApplied)
    (hcommit : rf.commitIndex ≤ rf.endIndex) : rf.applyLogs.isSome = true := by
  unfold applyLogs
  unfold endIndex at hcommit
  split
  · exact slice?_isSome (by omega) (by omega) (by omega)
  · rfl

/-- The entry before `NextIndex`, unless the snapshot ends there. -/
theorem exists_prev (hnext : rf.nextIndex s ≤ rf.endIndex + 1)
    (hsnap : rf.snapshotLastIncludedIndex + 1 < rf.nextIndex s) :
    ∃ prev, at? rf.logs ((rf.nextIndex s : Int) - rf.snapshotLastIncludedIndex - 2) = some prev := by
  unfold endIndex at hnext
  exact Option.isSome_iff_exists.mp (at?_isSome (by omega) (by omega))

theorem replicateLog_isSome (hnext : rf.nextIndex s ≤ rf.endIndex + 1) :
    (replicateLog rf s).isSome = true := by
  unfold replicateLog
  unfold endIndex at hnext
  split
  · rfl
  · split
    · rfl
    · have hslice : (slice? rf.logs ((rf.nextIndex s : Int) - rf.snapshotLastIncludedIndex - 1)
          rf.logs.length).isSome = true := slice?_isSome (by omega) (by omega) (Int.le_refl _)
      obtain ⟨entries, hentries⟩ := Option.isSome_iff_exists.mp hslice
      simp only [hentries, Option.bind_eq_bind, Option.bind_some]
      split
      · obtain ⟨prev, hprev⟩ := exists_prev hnext (by omega)
        simp [hprev]
      · rfl

theorem heartBeatArgs_isSome (hnext : rf.nextIndex s ≤ rf.endIndex + 1) :
    (heartBeatArgs rf s).isSome = true := by
  unfold heartBeatArgs
  unfold endIndex at hnext
  dsimp only
  split
  · obtain ⟨prev, hprev⟩ := exists_prev hnext (by omega)
    simp [hprev]
  · rfl

/-! ### Runs without a crash -/

section Reach
variable (h : (cluster n C).Reach crashFree w)
include h

theorem contiguous_of_reach (i : Fin n) :
    Contiguous (w.nodes i).raft.snapshotLastIncludedIndex (w.nodes i).raft.logs :=
  ((allPositioned (h.mono fun _ _ _ _ _ => trivial)).servers i).logs

/-- What a server takes for committed is in its log or under its snapshot. -/
theorem commitIndex_le_endIndex (i : Fin n) :
    (w.nodes i).raft.commitIndex ≤ (w.nodes i).raft.endIndex :=
  commitIndex_le_of_recovers (recovers_of_crashFree h) i

theorem snapshot_le_lastApplied (i : Fin n) :
    (w.nodes i).raft.snapshotLastIncludedIndex ≤ (w.nodes i).raft.lastApplied := by
  obtain ⟨-, a, -, hrel⟩ := implements_reach (recovers_of_crashFree h)
  exact (hrel.nodes i).tracks.snap_le

theorem nextIndex_le_endIndex (hlead : Event.lead i (w.nodes i).raft.currentTerm ∈ w.trace)
    (s : Fin n) : (w.nodes i).raft.nextIndex s ≤ (w.nodes i).raft.endIndex + 1 := by
  rw [← lastLogIndex_eq_endIndex (contiguous_of_reach h i)]
  exact nextIndex_le h hlead s

theorem lead_of_leading (hlead : (w.nodes i).raft.currentTerm ∈ (w.nodes i).leading) :
    Event.lead i (w.nodes i).raft.currentTerm ∈ w.trace :=
  (implements_reach (recovers_of_crashFree h)).1.elections.leading i _ hlead

end Reach

/-- **No access out of range.** In every state of a timely run without a crash `CommitIndex` lies
inside the log, and so do the slice that `applyLog` takes, what `replicateLog` accesses in the term
of its leader and what `sendHeartBeat` accesses in a leader. -/
theorem accesses_in_range {x : InMemory (World n C) n C}
    (h : (processes n C).Reach (timely crashFree) x) (i : Fin n) :
    (x.state.nodes i).raft.commitIndex ≤
      (x.state.nodes i).raft.snapshotLastIncludedIndex + (x.state.nodes i).raft.logs.length ∧
    ((x.state.nodes i).raft.lastApplied < (x.state.nodes i).raft.commitIndex →
      (slice? (x.state.nodes i).raft.logs
        (((x.state.nodes i).raft.lastApplied : Int) -
          (x.state.nodes i).raft.snapshotLastIncludedIndex)
        (((x.state.nodes i).raft.commitIndex : Int) -
          (x.state.nodes i).raft.snapshotLastIncludedIndex)).isSome = true) ∧
    (∀ leaderTerm ∈ (x.state.nodes i).leading,
      (x.state.nodes i).raft.currentTerm = leaderTerm → ∀ s,
      (replicateLog (x.state.nodes i).raft s).isSome = true) ∧
    ((x.state.nodes i).raft.state = .leader → ∀ s,
      (heartBeatArgs (x.state.nodes i).raft s).isSome = true) := by
  have hreach := reach_of_timely (fun _ => recovers_of_crashFree) h
  have hcommit := commitIndex_le_endIndex hreach i
  refine ⟨hcommit, fun hlt => ?_, fun T hT hterm s => ?_, fun hstate s => ?_⟩
  · have htake := applyLogs_isSome (snapshot_le_lastApplied hreach i) hcommit
    rwa [applyLogs, if_pos hlt] at htake
  · subst hterm
    exact replicateLog_isSome (nextIndex_le_endIndex hreach (lead_of_leading hreach hT) s)
  · exact heartBeatArgs_isSome (nextIndex_le_endIndex hreach (lead_of_leader hreach hstate) s)

/-- Server `i` leads term 1, commits and applies the first of three entries with server `j`, and
its service cuts the log there. Server `k` has nothing yet. -/
def cutAhead (i j : Fin n) : List (Action n Nat) :=
  [.electionTimeout i, .handle 0, .ret 0, .start i 10, .replicateLog i j 1, .handle 4, .ret 4,
   .updateCommitIndex i 1, .applyTake i, .applySend i, .snapshot i 1 [], .start i 11,
   .replicateLog i j 1, .handle 5, .ret 5, .updateCommitIndex i 1, .start i 12]

theorem cutAhead_runs :
    (((processes 3 Nat).runWhere (timely crashFree) (processes 3 Nat).init
        (scheduled [] (cutAhead 0 1))).map fun x =>
      decide ((x.state.nodes 0).raft.state = .leader ∧ 1 ∈ (x.state.nodes 0).leading ∧
        (x.state.nodes 0).raft.currentTerm = 1 ∧
        (x.state.nodes 0).raft.snapshotLastIncludedIndex = 1 ∧
        (x.state.nodes 0).raft.lastApplied = 1 ∧ (x.state.nodes 0).raft.commitIndex = 2 ∧
        (x.state.nodes 0).raft.nextIndex 1 = 3 ∧ (x.state.nodes 0).raft.nextIndex 2 = 1)) =
      some true := by
  decide +kernel

theorem accesses_in_range_cutAhead : ∃ x : InMemory (World 3 Nat) 3 Nat,
    (processes 3 Nat).Reach (timely crashFree) x ∧
    (x.state.nodes 0).raft.lastApplied < (x.state.nodes 0).raft.commitIndex ∧
    (x.state.nodes 0).raft.snapshotLastIncludedIndex = 1 ∧
    (x.state.nodes 0).raft.commitIndex ≤
      (x.state.nodes 0).raft.snapshotLastIncludedIndex + (x.state.nodes 0).raft.logs.length ∧
    (slice? (x.state.nodes 0).raft.logs
      (((x.state.nodes 0).raft.lastApplied : Int) -
        (x.state.nodes 0).raft.snapshotLastIncludedIndex)
      (((x.state.nodes 0).raft.commitIndex : Int) -
        (x.state.nodes 0).raft.snapshotLastIncludedIndex)).isSome = true ∧
    (∀ s, (replicateLog (x.state.nodes 0).raft s).isSome = true) ∧
    ∀ s, (heartBeatArgs (x.state.nodes 0).raft s).isSome = true := by
  obtain ⟨x, hreach, hstate, hlead, hterm, hsnap, happlied, hcommit, -, -⟩ :=
    System.exists_reach_of_runWhere cutAhead_runs
  have hlt : (x.state.nodes 0).raft.lastApplied < (x.state.nodes 0).raft.commitIndex := by omega
  obtain ⟨hend, happly, hreplicate, hbeat⟩ := accesses_in_range hreach 0
  exact ⟨x, hreach, hlt, hsnap, hend, happly hlt, hreplicate 1 hlead hterm, hbeat hstate⟩

/-- Server 4, whose log has a gap, is elected and sends heartbeats: the index of its last entry is
past its position. -/
theorem shifted_leads :
    (((processes 7 Nat).runWhere (anytime crashFree) (processes 7 Nat).init
        (List.flatten [shifted 0 1 2 3 4 5, scheduled []
          [.electionTimeout 4, .electionTimeout 4, .handle 46, .handle 47, .handle 48, .ret 46,
           .ret 47, .ret 48]])).map fun x =>
      decide ((x.state.nodes 4).raft.state = .leader ∧
        (heartBeatArgs (x.state.nodes 4).raft 0).isSome = false ∧
        (x.state.nodes 4).up = false)) = some true := by
  decide +kernel

/-- With requests encoded late, a leader can reach outside its log. -/
theorem accesses_out_of_range : ¬ ∀ x : InMemory (World 7 Nat) 7 Nat,
    (processes 7 Nat).Reach (anytime crashFree) x → ∀ i,
      (x.state.nodes i).raft.state = .leader → ∀ s,
        (heartBeatArgs (x.state.nodes i).raft s).isSome = true := by
  intro hall
  obtain ⟨x, hreach, hstate, hnone, -⟩ := System.exists_reach_of_runWhere shifted_leads
  have hsome := hall x hreach 4 hstate 0
  rw [hnone] at hsome
  cases hsome

/-! ### Nobody panics -/

theorem mapM_isSome {α β : Type} {f : α → Option β} {l : List α}
    (h : ∀ a ∈ l, (f a).isSome = true) : (l.mapM f).isSome = true := by
  induction l with
  | nil => rfl
  | cons a rest ih =>
    obtain ⟨b, hb⟩ := Option.isSome_iff_exists.mp (h a List.mem_cons_self)
    obtain ⟨bs, hbs⟩ := Option.isSome_iff_exists.mp
      (ih fun a' ha' => h a' (List.mem_cons_of_mem _ ha'))
    simp [hb, hbs]

/-- A round of heartbeats whose accesses are all in range changes no server. -/
theorem sendHeartBeat_nodes_of_isSome
    (h : ∀ s, (heartBeatArgs (w.nodes i).raft s).isSome = true) :
    (w.sendHeartBeat i).nodes = w.nodes := by
  have hall : ((others i).mapM
      fun j => (heartBeatArgs (w.nodes i).raft j).map (j, ·)).isSome = true :=
    mapM_isSome fun j _ => by rw [Option.isSome_map]; exact h j
  obtain ⟨args, hargs⟩ := Option.isSome_iff_exists.mp hall
  unfold World.sendHeartBeat
  rw [hargs]
  rfl

/-- A new leader's tables point right behind its log. -/
theorem heartBeatArgs_becomeLeader (hcont : Contiguous rf.snapshotLastIncludedIndex rf.logs)
    (s : Fin n) : (heartBeatArgs rf.becomeLeader s).isSome = true := by
  refine heartBeatArgs_isSome ?_
  show rf.lastLogIndex + 1 ≤ rf.endIndex + 1
  rw [lastLogIndex_eq_endIndex hcont]

theorem installSnapshot_total (rf : Raft n C) (args : InstallSnapshotArg n) :
    ∃ rf' reply, rf.installSnapshot args = some (rf', reply) := by
  obtain ⟨saved, hmake⟩ :=
    makeRaftState_total (acceptLeader rf args.term).1 (args.lastIncludedIndex + 1)
  unfold installSnapshot
  split
  · exact ⟨_, _, rfl⟩
  · dsimp only
    split
    · exact ⟨_, _, rfl⟩
    · rw [hmake]
      exact ⟨_, _, rfl⟩

theorem snapshot_total (rf : Raft n C) (index : Nat) (data : Bytes) :
    ∃ rf', rf.snapshot index data = some rf' := by
  obtain ⟨saved, hmake⟩ := makeRaftState_total rf (index + 1)
  unfold Raft.snapshot
  split
  · exact ⟨_, rfl⟩
  · rw [hmake]
    exact ⟨_, rfl⟩

/-- Every server is up. -/
def AllUp (w : World n C) : Prop := ∀ i, (w.nodes i).up = true

namespace AllUp
variable (hup : AllUp w)
include hup

theorem setNode {node : Node n C} (i : Fin n) (hnode : node.up = true) : AllUp (w.setNode i node) :=
  forall_setNode (P := fun _ node => node.up = true) hup hnode

theorem setRaft (i : Fin n) (rf : Raft n C) : AllUp (w.setRaft i rf) := hup.setNode i (hup i)

theorem handle (k : Nat) (c : Call n C) : AllUp (w.handle k c) := by
  unfold World.handle
  dsimp only
  split
  · exact hup.setRaft c.dst _
  · rename_i args _
    obtain ⟨rf', reply, happ⟩ := appendEntries_total (w.nodes c.dst).raft args
    rw [happ]
    exact hup.setRaft c.dst rf'
  · rename_i args _
    obtain ⟨rf', reply, hins⟩ := installSnapshot_total (w.nodes c.dst).raft args
    rw [hins]
    exact hup.setRaft c.dst rf'

theorem voteReturned (i : Fin n) (args : RequestVoteArgs n) (reply : RequestVoteReply)
    (hcont : Contiguous (w.nodes i).raft.snapshotLastIncludedIndex (w.nodes i).raft.logs) :
    AllUp (w.voteReturned i args reply) := by
  unfold World.voteReturned
  dsimp only
  split
  · split
    · exact hup.setNode i (hup i)
    · split
      · exact hup.setNode i (hup i)
      · intro v
        rw [sendHeartBeat_nodes_of_isSome]
        · rw [observe_nodes]
          refine AllUp.setNode (hup.setNode i ?_) i ?_ v
          · exact hup i
          · simpa using hup i
        · intro s
          rw [observe_nodes, setNode_self]
          exact heartBeatArgs_becomeLeader hcont s
  · split
    · exact hup.setRaft i _
    · exact hup

end AllUp

/-- A reply never makes a leader reach outside its log. -/
theorem appendEntriesReturned_isSome (h : (cluster n C).Reach crashFree w) {c : Call n C}
    (hc : c ∈ w.calls) {args : AppendEntriesArgs n C} {reply : Option Reply}
    (hargs : c.args = .appendEntries args)
    (hreply : ∀ r, reply = some r → c.progress = .handled r) :
    ((w.nodes c.src).raft.appendEntriesReturned c.dst args
      (Reply.appendEntries? reply)).isSome = true := by
  unfold appendEntriesReturned
  split
  · rfl
  · rename_i hlow
    split
    · rfl
    · rename_i hhigh
      split
      · rename_i hterm
        dsimp only
        split
        · rfl
        · split
          · rename_i hconflict
            match reply, hreply, hconflict, hlow, hhigh with
            | some (.appendEntries r), hreply, hconflict, hlow, hhigh =>
              have hrefused : Refused (w.nodes c.src).raft c.dst args r :=
                ⟨hconflict.1, Nat.le_antisymm (Nat.le_of_not_lt hlow) (Nat.le_of_not_lt hhigh),
                  hterm, hconflict.2⟩
              obtain ⟨-, next, hback, -⟩ :=
                backOff_of_refused h hc hargs (hreply _ rfl) hrefused
              simp [Reply.appendEntries?, hback]
            | none, _, hconflict, _, _ => cases hconflict.1
            | some (.requestVote _), _, hconflict, _, _ => cases hconflict.1
            | some (.installSnapshot _), _, hconflict, _, _ => cases hconflict.1
          · rfl
      · rfl

theorem AllUp.finish (hup : AllUp w) (h : (cluster n C).Reach crashFree w) {k : Nat}
    {c : Call n C} {reply : Option Reply} (hk : w.calls[k]? = some c)
    (hreply : ∀ r, reply = some r → c.progress = .handled r) : AllUp (w.finish k c reply) := by
  unfold World.finish
  dsimp only
  split
  · unfold World.resume
    dsimp only
    split
    · exact AllUp.voteReturned (w := w.advance k c _) hup c.src _ _ (contiguous_of_reach h c.src)
    · exact hup
    · rename_i reply _ _ args hargs _
      obtain ⟨rf', hret⟩ := Option.isSome_iff_exists.mp
        (appendEntriesReturned_isSome h (List.mem_of_getElem? hk) hargs hreply)
      rw [show ((w.advance k c (.returned reply)).nodes c.src).raft.appendEntriesReturned c.dst
        args (Reply.appendEntries? reply) = some rf' from hret]
      exact AllUp.setRaft (w := w.advance k c _) hup c.src rf'
    · exact AllUp.setRaft (w := w.advance k c _) hup c.src _
  · exact hup

theorem AllUp.step (hup : AllUp w) (h : (cluster n C).Reach crashFree w)
    (hstep : (cluster n C).step w act = some w') : AllUp w' := by
  cases act with
  | electionTimeout j =>
    simp only [cluster, Raft.step, Option.ite_none_right_eq_some, Option.some.injEq] at hstep
    obtain ⟨-, rfl⟩ := hstep
    exact hup.setNode j (hup j)
  | heartBeat j =>
    simp only [cluster, Raft.step, Option.ite_none_right_eq_some, Option.some.injEq] at hstep
    obtain ⟨⟨-, hstate⟩, rfl⟩ := hstep
    have hbeat := fun s => heartBeatArgs_isSome (nextIndex_le_endIndex h (lead_of_leader h hstate) s)
    intro v
    rw [sendHeartBeat_nodes_of_isSome hbeat]
    exact hup v
  | replicateLog j s leaderTerm =>
    simp only [cluster, Raft.step, Option.ite_none_right_eq_some, Option.some.injEq] at hstep
    obtain ⟨⟨-, hlead, -⟩, rfl⟩ := hstep
    unfold World.replicate
    dsimp only
    split
    · exact hup
    · rename_i hterm
      have hsend := replicateLog_isSome
        (nextIndex_le_endIndex h (lead_of_leading h (not_not.mp hterm ▸ hlead)) s)
      split
      · rename_i hnone
        rw [hnone] at hsend
        cases hsend
      · exact hup
      · exact hup
      · exact hup
  | updateCommitIndex j leaderTerm =>
    simp only [cluster, Raft.step, Option.ite_none_right_eq_some, Option.some.injEq] at hstep
    obtain ⟨-, rfl⟩ := hstep
    unfold World.commit
    dsimp only
    split
    · exact hup
    · split
      · exact hup
      · exact hup.setRaft j _
  | handle k =>
    obtain ⟨c, -, -, rfl⟩ := step_handle hstep
    exact hup.handle k c
  | lose k =>
    obtain ⟨c, -, -, rfl⟩ := step_lose hstep
    exact hup
  | ret k =>
    obtain ⟨c, reply, hk, hreply, -, rfl⟩ := step_ret hstep
    exact hup.finish h hk hreply
  | start j command =>
    simp only [cluster, Raft.step, Option.ite_none_right_eq_some, Option.some.injEq] at hstep
    obtain ⟨-, rfl⟩ := hstep
    exact hup.setRaft j _
  | snapshot j index data =>
    simp only [cluster, Raft.step, Option.ite_none_right_eq_some] at hstep
    obtain ⟨-, hstep⟩ := hstep
    obtain ⟨rf', hsnap⟩ := snapshot_total (w.nodes j).raft index data
    rw [hsnap] at hstep
    cases hstep
    exact hup.setRaft j rf'
  | applyTake j =>
    simp only [cluster, Raft.step, Option.ite_none_right_eq_some, Option.some.injEq] at hstep
    obtain ⟨-, rfl⟩ := hstep
    obtain ⟨logs, hlogs⟩ := Option.isSome_iff_exists.mp
      (applyLogs_isSome (snapshot_le_lastApplied h j) (commitIndex_le_endIndex h j))
    unfold World.applyTake
    rw [applyLog, hlogs]
    exact hup.setNode j (hup j)
  | applySend j =>
    simp only [cluster, Raft.step] at hstep
    split at hstep
    · cases hstep
      exact hup.setNode j (hup j)
    · cases hstep
  | applyDone j =>
    simp only [cluster, Raft.step] at hstep
    split at hstep
    · cases hstep
      exact hup.setNode j (hup j)
    · cases hstep
  | restart j =>
    cases hstep
    exact hup.setNode j rfl

/-- **No server panics** in a timely run without a crash. -/
theorem never_panics {x : InMemory (World n C) n C}
    (h : (processes n C).Reach (timely crashFree) x) : AllUp x.state :=
  (reach_of_timely (fun _ => recovers_of_crashFree) h).invariant (fun _ => rfl)
    fun _ _ _ hreach hup _ hstep => hup.step hreach hstep

end RaftLabs.Raft
