import RaftLabs.Raft.Simulation

/-! A server as a candidate and a leader: elections, the requests it sends and what
comes back, the commit index and new entries. -/
namespace RaftLabs.Raft
open Lib World ReplicatedLog
variable {n : Nat} {C : Type} {w w' : World n C} {a a' : Ghost n C} {i : Fin n}

/-! ### Candidates -/

theorem Rel.election (h : Rel w a) (hs : a.Sound RaftLogEntry.term) (i : Fin n) :
    ∃ a' : Ghost n C, a'.Sound RaftLogEntry.term ∧ Succeeds a a' ∧
      Rel (((w.setNode i (w.candidate i)).send ((others i).map fun j =>
          w.call i j (.requestVote (prepareElection (w.nodes i).raft).2))).observe
        [.vote i i ((w.nodes i).raft.currentTerm + 1)]) a' := by
  have hn := h.nodes i
  have hrf := SameLog.prepareElection hn.tracks.leaderTerm
  have hv := hrf.voterStep hs hn.stores
  obtain ⟨hterm, hindex⟩ := h.last_log hs i
  have hrel := h.sameLog hs (w.candidate i) hrf rfl rfl
  refine ⟨_, hv.sound, .ofVoter hv, (hrel.send fun c hc => ?_).observe fun e he => ?_⟩
  · obtain ⟨j, _, rfl⟩ := List.mem_map.mp hc
    have hvoter : ((a.setTerm i (prepareElection (w.nodes i).raft).1.savedTerm
        (prepareElection (w.nodes i).raft).1.currentTerm).voter i).log = (a.voter i).log := by
      rw [setTerm_voter_self]
    refine (callRel_vote (c := w.call i j _) rfl).mpr ⟨?_, fun _ _ => ?_, nofun⟩
    · show _ ≤ ((a.setTerm i _ _).voter i).durable
      rw [setTerm_voter_self]
      exact Nat.le_refl _
    · exact ⟨(congrArg _ hvoter).trans hterm.symm, (congrArg _ hvoter).trans hindex.symm⟩
  · rw [List.mem_singleton.mp he]
    trivial

/-- A vote counted, or one that came too late. -/
theorem Rel.returned (h : Rel w a) {k : Nat} {c : Call n C} {reply : Option Reply}
    (hk : w.calls[k]? = some c) (hreply : ∀ r, reply = some r → c.progress = .handled r) :
    Rel (w.advance k c (.returned reply)) a := by
  refine h.advance ((h.calls c (List.mem_of_getElem? hk)).progress fun r hr => ?_)
  rw [hreply r hr]
  rfl

/-- A refused vote may bring a higher term. -/
theorem Rel.stepDown (h : Rel w a) (hs : a.Sound RaftLogEntry.term) {term : Nat}
    (hlt : (w.nodes i).raft.currentTerm < term) :
    ∃ a' : Ghost n C, a'.Sound RaftLogEntry.term ∧ Succeeds a a' ∧
      Rel (w.setRaft i ((w.nodes i).raft.stepDown term).persist) a' := by
  have hrf : SameLog (w.nodes i).raft _ := (SameLog.stepDown hlt).persist
  have hv := hrf.voterStep hs (h.nodes i).stores
  exact ⟨_, hv.sound, .ofVoter hv, h.sameLogRaft hs hrf⟩

/-! ### What a leader's log is -/

/-- A server in a term it was elected for still has the log of that term. -/
structure Leads (a : Ghost n C) (i : Fin n) (T : Nat) : Prop where
  leader : a.leader T = some i
  durable : (a.voter i).durable = T
  log : (a.voter i).log = a.leaderLog T

theorem Leads.led {T : Nat} (h : Leads a i T) : a.leader T ≠ none := by
  rw [h.leader]
  exact Option.some_ne_none i

theorem Rel.leads_of_leader (h : Rel w a) (hs : a.Sound RaftLogEntry.term)
    (hled : a.leader (w.nodes i).raft.currentTerm = some i) :
    Leads a i (w.nodes i).raft.currentTerm := by
  have hx := hs.voters i
  obtain ⟨hle, hlog⟩ := hx.leading _ hled
  have hdur := hx.durable_le
  rw [(h.nodes i).stores.term] at hdur
  have heq := Nat.le_antisymm hdur hle
  exact ⟨hled, heq, hlog heq⟩

theorem Rel.leads (h : Rel w a) (hs : a.Sound RaftLogEntry.term)
    (hlead : Event.lead i (w.nodes i).raft.currentTerm ∈ w.trace) :
    Leads a i (w.nodes i).raft.currentTerm :=
  h.leads_of_leader hs (h.events _ hlead)

/-- What the leader takes for committed is covered in its term. -/
theorem Rel.covered (h : Rel w a) {k : Nat} (hk : a.Known i k) :
    a.Covered (w.nodes i).raft.currentTerm k :=
  hk.covered.mono (Nat.le_of_eq (h.nodes i).stores.term) (Nat.le_refl k)

/-! ### Winning an election -/

/-- The candidate of a vote that decides an election can become leader. -/
theorem Rel.electable (h : Rel w a) (hs : a.Sound RaftLogEntry.term)
    (hnone : a.leader (w.nodes i).raft.currentTerm = none)
    (hdur : (a.voter i).durable = (w.nodes i).raft.currentTerm) {Q : Finset (Fin n)}
    (hQ : Majority Q) (hvotes : ∀ u ∈ Q, u = i ∨ ∃ d ∈ w.calls,
      d.election = some (i, (w.nodes i).raft.currentTerm, u) ∧ d.Won) :
    Electable RaftLogEntry.term a i (w.nodes i).raft.currentTerm ∧
      ∀ u ∈ Q, (w.nodes i).raft.currentTerm ≤ (a.voter u).durable := by
  have hback : ∀ u ∈ Q, u = i ∨ ∃ d args, VoteCall a d args ∧ d.src = i ∧
      args.term = (w.nodes i).raft.currentTerm ∧ Backs a u args := by
    intro u hu
    refine (hvotes u hu).imp_right fun ⟨d, hd, hel, reply, hret, hgrant⟩ => ?_
    obtain ⟨args, hargs, hsrc, hterm, hdst⟩ := election_eq_some hel
    have hd := (callRel_vote hargs).mp (h.calls d hd)
    refine ⟨d, args, hd, hsrc, hterm, ?_⟩
    rw [← hdst]
    exact hd.granted reply (by rw [hret]; rfl) hgrant
  have hreached : ∀ u ∈ Q, (w.nodes i).raft.currentTerm ≤ (a.voter u).durable := by
    intro u hu
    rcases hback u hu with rfl | ⟨d, args, _, _, hterm, hb⟩
    · exact Nat.le_of_eq hdur.symm
    · rw [← hterm]
      exact hb.1
  refine ⟨electable_of_majority hnone hdur hQ hreached fun u hu T₀ k hlt hown hch hack => ?_,
    hreached⟩
  rcases hback u hu with rfl | ⟨d, args, hd, rfl, hterm, hb⟩
  · exact ((hs.voters u).keep T₀ k hown hch (.inl hack)).2.2
  · rw [← hterm] at hnone hdur hlt
    obtain ⟨hlastTerm, hlength⟩ := hd.log hnone hdur
    unfold EndsAfter
    rw [hlastTerm, hlength]
    exact hb.2 T₀ k hlt hown hch hack

/-- The tables of a new leader count on nothing but its own log. -/
theorem Tracks.becomeLeader {rf : Raft n C} (h : Tracks a i rf) (hs : a.Sound RaftLogEntry.term)
    (ev : Evolves a a') (hknown : ∀ k, a.Known i k → a'.Known i k)
    (hlog : (a'.voter i).log = (a.voter i).log) (hme : rf.me = i)
    (hlast : rf.lastLogIndex ≤ (a'.voter i).acked rf.currentTerm) :
    Tracks a' i rf.becomeLeader := by
  refine ⟨hknown _ h.commit, hknown _ h.applied, h.snap_le, h.snapshotMsg.evolve hs ev hknown,
    h.leaderTerm, fun hl => ?_, fun _ j => .inl ?_⟩
  · refine (h.verified hl).imp (hknown _) fun hf => hf.evolve ev ?_
    rw [hlog]
    exact .refl _ _ _
  · unfold Raft.becomeLeader
    dsimp only
    split
    · exact Nat.zero_le _
    · rename_i hj
      rw [not_not.mp hj, hme]
      exact hlast

/-- A majority's votes make the candidate the leader of its term, if it was not
already. -/
theorem Rel.elect (h : Rel w a) (hs : a.Sound RaftLogEntry.term) (hme : (w.nodes i).raft.me = i)
    (honly : ∀ v, a.leader (w.nodes i).raft.currentTerm = some v → v = i)
    (hdur : (a.voter i).durable = (w.nodes i).raft.currentTerm) {Q : Finset (Fin n)}
    (hQ : Majority Q) (hvotes : ∀ u ∈ Q, u = i ∨ ∃ d ∈ w.calls,
      d.election = some (i, (w.nodes i).raft.currentTerm, u) ∧ d.Won) :
    ∃ a' : Ghost n C, a'.Sound RaftLogEntry.term ∧ Succeeds a a' ∧ Rel (w.elect i) a' := by
  have hn := h.nodes i
  have hindex := (h.last_log hs i).2
  cases hled : a.leader (w.nodes i).raft.currentTerm with
  | some v =>
    cases honly v hled
    have hl := h.leads_of_leader hs hled
    have hcount := hs.counted _ _ hled
    rw [← hl.log, ← hindex] at hcount
    have hnode : NodeRel a i (w.elected i) :=
      hn.step hs (.refl a) (fun _ hk => hk) (hn.stores.congr rfl rfl rfl rfl rfl)
        (hn.tracks.becomeLeader hs (.refl a) (fun _ hk => hk) rfl hme hcount) rfl rfl
    refine ⟨a, hs, .refl a, (h.setNode hnode).observe fun e he => ?_⟩
    rw [List.mem_singleton.mp he]
    exact hled
  | none =>
    obtain ⟨hel, hreached⟩ := h.electable hs hled hdur hQ hvotes
    have ev := Evolves.elect hs hled hdur
    have hs' := hs.elect hel hQ hreached
    have hknown : ∀ k, a.Known i k → (a.elect i (w.nodes i).raft.currentTerm).Known i k :=
      fun k hk => hk.elect hs hled hdur
    have hst := hn.stores
    have hnode : NodeRel (a.elect i (w.nodes i).raft.currentTerm) i (w.elected i) := by
      refine hn.step hs ev hknown ?_ (hn.tracks.becomeLeader hs ev hknown ?_ hme ?_) rfl rfl <;>
        rw [elect_voter_self]
      · exact ⟨⟨hst.term, hst.snap, hst.logs, hst.snapTerm⟩, hst.durable, hst.savedLogs,
          hst.savedSnap⟩
      · dsimp only
        rw [Function.update_self, hindex]
    refine ⟨_, hs', .elect hs hled hdur hn.stores.term,
      h.evolve hs ev (fun v hv => elect_voter_ne hv) (fun v hv T hT => ?_)
      (fun T => ?_) rfl (fun v hv => setNode_ne w _ hv) ?_ (fun T v hT => ?_) fun e he => ?_⟩
    · by_cases hT' : T = (w.nodes i).raft.currentTerm
      · rw [hT', elect_leader_self] at hT
        exact absurd (Option.some.inj hT).symm hv
      · rwa [elect_leader_ne hT'] at hT
    · by_cases hT' : T = (w.nodes i).raft.currentTerm
      · rw [hT', elect_leaderLog_self]
        intro p e he
        rw [h.log_indexed hs he, Nat.zero_add]
      · rw [elect_leaderLog_ne hT']
        exact h.indexed T
    · unfold World.elect
      rw [observe_nodes, setNode_self]
      exact hnode
    · by_cases hT' : T = (w.nodes i).raft.currentTerm
      · rw [hT', elect_leader_self] at hT
        cases hT
        rw [hT']
        exact List.mem_append_right _ (List.mem_singleton.mpr rfl)
      · rw [elect_leader_ne hT'] at hT
        exact List.mem_append_left _ (h.leaders T v hT)
    · refine (List.mem_append.mp he).imp_right fun he => ?_
      rw [List.mem_singleton.mp he]
      exact elect_leader_self

/-! ### Requests -/

section Requests
variable (h : Rel w a) (hs : a.Sound RaftLogEntry.term)
variable (hl : Leads a i (w.nodes i).raft.currentTerm)
include h hs hl

/-- The predecessor a leader names is in its log. -/
theorem Rel.precedes {next prevIndex prevTerm : Nat}
    (hprev : Precedes (w.nodes i).raft next prevIndex prevTerm) :
    prevIndex ≤ (a.leaderLog (w.nodes i).raft.currentTerm).length ∧
    prevTerm = lastTerm RaftLogEntry.term
      ((a.leaderLog (w.nodes i).raft.currentTerm).take prevIndex) ∧
    (prevIndex = (w.nodes i).raft.snapshotLastIncludedIndex ∨ prevIndex + 1 = next) := by
  have hst := (h.nodes i).stores
  rw [← hl.log]
  rcases hprev with ⟨rfl, rfl⟩ | ⟨prev, hat, rfl, rfl⟩
  · have hle := (hs.voters i).snap_le
    rw [← hst.snap, ← hst.snapTerm]
    exact ⟨hle, rfl, .inl rfl⟩
  · obtain ⟨hpos, hget⟩ := at?_eq_some hat
    rw [h.logs_getElem?] at hget
    have hidx := h.log_indexed hs hget
    have hlt := (List.getElem?_eq_some_iff.mp hget).1
    obtain ⟨e, he, hterm⟩ := lastTerm_take (l := (a.voter i).log) (k := prev.index) (by omega)
      (by omega)
    rw [hidx, Nat.add_sub_cancel, hget] at he
    cases he
    exact ⟨by omega, hterm.symm, .inr (by omega)⟩

/-- A call with a slice of the leader's log. -/
theorem Rel.entriesCall {j : Fin n} {args : AppendEntriesArgs n C}
    (hterm : args.term = (w.nodes i).raft.currentTerm)
    (hcommit : args.leaderCommit = (w.nodes i).raft.commitIndex)
    (hprev : Precedes (w.nodes i).raft ((w.nodes i).raft.nextIndex j) args.prevLogIndex
      args.prevLogTerm)
    (hentries : args.entries = [] ∨ args.entries =
      (a.leaderLog (w.nodes i).raft.currentTerm).drop args.prevLogIndex) :
    CallRel a (w.call i j (.appendEntries args)) := by
  obtain ⟨hlen, hprevTerm, _⟩ := h.precedes hs hl hprev
  refine (callRel_entries (c := w.call i j _) rfl).mpr ⟨by rw [hterm]; exact hl.leader, ?_, nofun⟩
  refine ⟨?_, fun p hp => ?_, by rw [hterm]; exact hprevTerm, ?_⟩
  · rw [hterm]
    rcases hentries with heq | heq <;> rw [heq]
    · exact hlen
    · rw [List.length_drop]
      omega
  · rw [hterm]
    rcases hentries with heq | heq
    · rw [heq] at hp
      cases hp
    · rw [heq, List.getElem?_drop]
  · rw [hterm, hcommit]
    exact h.covered (h.nodes i).tracks.commit

theorem Rel.sendHeartBeat : Rel (w.sendHeartBeat i) a := by
  rcases sendHeartBeat_cases w i with heq | ⟨calls, heq, hcalls⟩
  · rw [heq]
    exact h.panic i
  · rw [heq]
    refine h.send fun c hc => ?_
    obtain ⟨j, args, _, hargs, rfl⟩ := hcalls c hc
    obtain ⟨prevIndex, prevTerm, hprev, rfl⟩ := heartBeatArgs_cases hargs
    exact h.entriesCall hs hl rfl rfl hprev (.inl rfl)

theorem Rel.replicateEntries {j : Fin n} {args : AppendEntriesArgs n C}
    (hrep : replicateLog (w.nodes i).raft j = some (.entries args)) :
    Rel (w.send [w.call i j (.appendEntries args)]) a := by
  refine h.send fun c hc => ?_
  rw [List.mem_singleton.mp hc]
  have hsent := replicates_of_replicateLog (h.contiguous hs i) hrep
  have hst := (h.nodes i).stores
  have hsnap := hsent.snap
  refine h.entriesCall hs hl hsent.term hsent.commit hsent.prev (.inr ?_)
  rw [hsent.entries, ← hl.log, ← hst.logs, List.drop_drop, hst.snap]
  congr 1
  omega

theorem Rel.replicateSnapshot {j : Fin n} {args : InstallSnapshotArg n}
    (hrep : replicateLog (w.nodes i).raft j = some (.snapshot args)) :
    Rel (w.send [w.call i j (.installSnapshot args)]) a := by
  refine h.send fun c hc => ?_
  rw [List.mem_singleton.mp hc, replicateLog_snapshot hrep]
  have hst := (h.nodes i).stores
  refine (callRel_snapshot (c := w.call i j _) rfl).mpr ⟨hl.leader, ?_, ?_⟩
  · refine h.covered ?_
    rw [← hst.snap]
    exact hs.known_snap
  · rw [← hl.log, ← hst.snap]
    exact hst.snapTerm.symm

end Requests

/-! ### Replies -/

/-- An index that the receiver confirmed, or that is covered, goes into the table. -/
theorem Tracks.matchIndex {rf : Raft n C} (h : Tracks a i rf) (next : Fin n → Nat) {j : Fin n}
    {k : Nat} (hk : k ≤ (a.voter j).acked rf.currentTerm ∨ a.Covered rf.currentTerm k) :
    Tracks a i { rf with
      matchIndex := Function.update rf.matchIndex j (max (rf.matchIndex j) k)
      nextIndex := next } := by
  refine ⟨h.commit, h.applied, h.snap_le, h.snapshotMsg, h.leaderTerm, h.verified, fun hT u => ?_⟩
  have hold := h.matched hT
  dsimp only
  by_cases hu : u = j
  · subst hu
    rw [Function.update_self]
    rcases Nat.le_total (rf.matchIndex u) k with hle | hle
    · rw [Nat.max_eq_right hle]
      exact hk
    · rw [Nat.max_eq_left hle]
      exact hold u
  · rw [Function.update_of_ne hu]
    exact hold u

theorem Rel.appendReturned (h : Rel w a) (hs : a.Sound RaftLogEntry.term) {k : Nat}
    {c : Call n C} {args : AppendEntriesArgs n C} {reply : Option Reply} {rf' : Raft n C}
    (hk : w.calls[k]? = some c) (hargs : c.args = .appendEntries args)
    (hreply : ∀ r, reply = some r → c.progress = .handled r)
    (hret : (w.nodes c.src).raft.appendEntriesReturned c.dst args (Reply.appendEntries? reply) =
      some rf') :
    ∃ a' : Ghost n C, a'.Sound RaftLogEntry.term ∧ Succeeds a a' ∧
      Rel ((w.advance k c (.returned reply)).setRaft c.src rf') a' := by
  have h₁ := h.returned hk hreply
  have hn := h.nodes c.src
  rcases appendEntriesReturned_cases hret with ⟨hlt, rfl⟩ | ⟨next, rfl⟩ | ⟨hterm, hok, next, rfl⟩
  · exact h₁.stepDown hs hlt
  · have htr := hn.tracks
    exact ⟨a, hs, .refl a, h₁.stepRaft hs (.refl hs) (hn.stores.congr rfl rfl rfl rfl rfl)
      ⟨htr.commit, htr.applied, htr.snap_le, htr.snapshotMsg, htr.leaderTerm, htr.verified,
        htr.matched⟩⟩
  · have hc := (callRel_entries hargs).mp (h.calls c (List.mem_of_getElem? hk))
    have hack : args.prevLogIndex + args.entries.length ≤ (a.voter c.dst).acked args.term ∨
        a.Covered args.term (args.prevLogIndex + args.entries.length) := by
      match reply, hreply, hok with
      | some (.appendEntries r), hreply, hok =>
        exact hc.success r (by rw [hreply _ rfl]; rfl) hok
    rw [← hterm] at hack
    exact ⟨a, hs, .refl a, h₁.stepRaft hs (.refl hs) (hn.stores.congr rfl rfl rfl rfl rfl)
      (hn.tracks.matchIndex next hack)⟩

theorem Rel.installReturned (h : Rel w a) (hs : a.Sound RaftLogEntry.term) {k : Nat}
    {c : Call n C} {args : InstallSnapshotArg n} {reply : Option Reply}
    (hk : w.calls[k]? = some c) (hargs : c.args = .installSnapshot args)
    (hreply : ∀ r, reply = some r → c.progress = .handled r) :
    ∃ a' : Ghost n C, a'.Sound RaftLogEntry.term ∧ Succeeds a a' ∧
      Rel ((w.advance k c (.returned reply)).setRaft c.src
        ((w.nodes c.src).raft.installSnapshotReturned c.dst args
          (Reply.installSnapshot? reply))) a' := by
  have h₁ := h.returned hk hreply
  have hn := h.nodes c.src
  rcases installSnapshotReturned_cases (w.nodes c.src).raft c.dst args
    (Reply.installSnapshot? reply) with ⟨hlt, heq⟩ | heq | ⟨hterm, _, next, heq⟩ <;> rw [heq]
  · exact h₁.stepDown hs hlt
  · exact ⟨a, hs, .refl a, h₁.stepRaft hs (.refl hs) hn.stores hn.tracks⟩
  · have hc := (callRel_snapshot hargs).mp (h.calls c (List.mem_of_getElem? hk))
    have hcov := hc.covered
    rw [← hterm] at hcov
    exact ⟨a, hs, .refl a, h₁.stepRaft hs (.refl hs) (hn.stores.congr rfl rfl rfl rfl rfl)
      (hn.tracks.matchIndex next (.inr hcov))⟩

/-! ### Committing -/

/-- A leader commits an entry of its term that a majority holds. -/
theorem Rel.committed (h : Rel w a) (hs : a.Sound RaftLogEntry.term)
    (hl : Leads a i (w.nodes i).raft.currentTerm) {index : Nat}
    (hscan : commitScan (w.nodes i).raft (w.nodes i).raft.currentTerm
      (w.nodes i).raft.logs.reverse = some index) :
    a.Committed (w.nodes i).raft.currentTerm index := by
  obtain ⟨e, he, hterm, rfl, hhalf⟩ := commitScan_spec hscan
  obtain ⟨p, hp⟩ := List.getElem?_of_mem (List.mem_reverse.mp he)
  rw [h.logs_getElem?] at hp
  have hidx := h.log_indexed hs hp
  rw [hl.log] at hp
  have hlt := (List.getElem?_eq_some_iff.mp hp).1
  have hown : a.Own (w.nodes i).raft.currentTerm e.index := by
    refine ⟨?_, by omega⟩
    by_contra hbase
    have := hs.inherited _ _ e hp (by omega)
    omega
  rw [replicas, countP_finRange] at hhalf
  refine hs.committed_of_majority hown (majority_of_half hhalf) fun u hu => ?_
  have hmatch : e.index ≤ (w.nodes i).raft.matchIndex u := by simpa using hu
  exact ((h.nodes i).tracks.matched hl.leader u).imp (Nat.le_trans hmatch)
    fun hcov => hcov.mono (Nat.le_refl _) hmatch

theorem Rel.commit (h : Rel w a) (hs : a.Sound RaftLogEntry.term)
    (hl : Leads a i (w.nodes i).raft.currentTerm) {index : Nat}
    (hscan : commitScan (w.nodes i).raft (w.nodes i).raft.currentTerm
      (w.nodes i).raft.logs.reverse = some index) :
    Rel ((w.setRaft i { (w.nodes i).raft with
        commitIndex := max (w.nodes i).raft.commitIndex index }).observe
      [.commit i (w.nodes i).raft.currentTerm (max (w.nodes i).raft.commitIndex index)
        (w.nodes i).raft.logs]) a := by
  have hc := h.committed hs hl hscan
  have hn := h.nodes i
  have hst := hn.stores
  have htr := hn.tracks
  have hk : a.Known i (max (w.nodes i).raft.commitIndex index) := by
    refine htr.commit.max (.inr ⟨_, _, hc, Nat.le_of_eq hst.term.symm, Nat.le_refl _, ?_⟩)
    rw [hl.log]
    exact .refl _ _ _
  have htracks : Tracks a i { (w.nodes i).raft with
      commitIndex := max (w.nodes i).raft.commitIndex index } :=
    ⟨hk, htr.applied, htr.snap_le, htr.snapshotMsg, htr.leaderTerm, htr.verified, htr.matched⟩
  have hrel := h.stepRaft hs (.refl hs) (by exact hst.congr rfl rfl rfl rfl rfl) htracks
  refine hrel.observe fun ev hev => ?_
  rw [List.mem_singleton.mp hev]
  intro e he hle
  obtain ⟨p, hp⟩ := List.getElem?_of_mem he
  rw [h.logs_getElem?] at hp
  have hidx := h.log_indexed hs hp
  rcases hk with hz | ⟨Tc, j, hc, hTc, hj, hagree⟩
  · omega
  · refine ⟨Tc, j, hc, by rw [← hst.term]; exact hTc, by omega, by omega, ?_⟩
    rw [hidx, Nat.add_sub_cancel, ← hagree _ (Nat.zero_le _) (by omega)]
    exact hp

/-! ### New entries -/

section Start
variable (h : Rel w a) (hs : a.Sound RaftLogEntry.term)
variable (hl : Leads a i (w.nodes i).raft.currentTerm) {e : RaftLogEntry C}
variable (heI : e.index = (a.voter i).log.length + 1)
include h hs hl heI

/-- The leader with one more entry, and its own match index at that entry. -/
theorem Rel.extend_node (hme : (w.nodes i).raft.me = i) (next : Fin n → Nat) :
    NodeRel (a.extend i (w.nodes i).raft.currentTerm e) i { w.nodes i with
      raft := { (w.nodes i).raft with
        logs := (w.nodes i).raft.logs ++ [e]
        nextIndex := next
        matchIndex :=
          Function.update (w.nodes i).raft.matchIndex (w.nodes i).raft.me e.index }.persist } := by
  have hst := (h.nodes i).stores
  have htr := (h.nodes i).tracks
  have hx := hs.voters i
  have ev := Evolves.extend (e := e) hs hl.leader hl.durable
  have hknown : ∀ k, a.Known i k → (a.extend i (w.nodes i).raft.currentTerm e).Known i k :=
    fun k hk => hk.extend hs hl.leader hl.durable
  refine (h.nodes i).step hs ev hknown ?_ ⟨hknown _ htr.commit, hknown _ htr.applied, htr.snap_le,
    htr.snapshotMsg.evolve hs ev hknown, htr.leaderTerm, fun hlt => ?_, fun hT j => ?_⟩ rfl rfl
  · rw [extend_voter_self]
    refine ⟨⟨hst.term, hst.snap, ?_, ?_⟩, hl.durable, rfl, rfl⟩
    · dsimp only
      rw [List.drop_append_of_le_length hx.snap_le, hst.logs]
      rfl
    · dsimp only
      rw [List.take_append_of_le_length hx.snap_le]
      exact hst.snapTerm
  · refine (htr.verified hlt).imp (hknown _) fun hf => hf.evolve ev ?_
    rw [extend_voter_self]
    refine agreeOn_append _ _ ?_
    rw [hl.log]
    exact hf.2
  · unfold Raft.persist
    dsimp only
    by_cases hj : j = i
    · subst hj
      refine .inl ?_
      rw [hme, Function.update_self, extend_voter_self]
      dsimp only
      rw [Function.update_self, heI, hl.log]
    · rw [hme, Function.update_of_ne hj]
      exact (htr.matched hl.leader j).imp (fun hle => Nat.le_trans hle (ev.acked _ _))
        fun hcov => hcov.evolve hs ev

theorem Rel.extend_log {node : Node n C}
    (hnode : NodeRel (a.extend i (w.nodes i).raft.currentTerm e) i node) :
    Rel (w.setNode i node) (a.extend i (w.nodes i).raft.currentTerm e) := by
  have ev := Evolves.extend (e := e) hs hl.leader hl.durable
  refine h.evolve hs ev (fun v hv => extend_voter_ne hv) (fun _ _ _ hT => hT) (fun T => ?_) rfl
    (fun v hv => setNode_ne w _ hv) (by rw [setNode_self]; exact hnode) h.leaders
    fun e he => .inl he
  intro p e₁ h₁
  rcases extend_entry h₁ with hold | ⟨rfl, rfl, rfl⟩
  · exact h.indexed T p e₁ hold
  · rw [heI, hl.log]
    omega

end Start

/-- `Start` extends the leader's log. -/
theorem Rel.start (h : Rel w a) (hs : a.Sound RaftLogEntry.term) (command : C)
    (hrole : (w.nodes i).raft.state = .leader →
      Leads a i (w.nodes i).raft.currentTerm ∧ (w.nodes i).raft.me = i) :
    ∃ a' : Ghost n C, a'.Sound RaftLogEntry.term ∧ Succeeds a a' ∧
      Rel (w.setRaft i ((w.nodes i).raft.start command).1) a' := by
  unfold Raft.start
  split
  · exact ⟨a, hs, .refl a, h.stepRaft hs (.refl hs) (h.nodes i).stores (h.nodes i).tracks⟩
  · rename_i hstate
    obtain ⟨hl, hme⟩ := hrole (not_not.mp hstate)
    have hindex := congrArg (· + 1) (h.last_log hs i).2
    exact ⟨_, hs.extend hl.leader hl.durable rfl,
      .extend hs hl.leader hl.durable (h.nodes i).stores.term,
      h.extend_log hs hl hindex (h.extend_node hs hl hindex hme _)⟩

end RaftLabs.Raft
