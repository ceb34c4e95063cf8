import RaftLabs.Raft.Indices
import RaftLabs.Raft.Safety

/-! What `LastNewEntryIndex` stands for.

A follower remembers across requests how far its log was compared with the leader's, and
lets `CommitIndex` follow the leader's no further than that. The value is reset whenever
the term or its leader changes. As long as `LeaderTerm` is the current term, everything up
to `LastNewEntryIndex` is in the log of the leader of that term, unless that leader has sent
what it never had: entries that its own successor wrote over those of a request.

That leader may have moved on and lost the entries again. The statement is therefore about
the history of a run: the leader had the entry in a state in which it led the term, and it
has it in every later state in which it still does. -/
namespace RaftLabs.Raft
open Lib World ReplicatedLog
variable {n : Nat} {C : Type} {w w' : World n C} {a a' : Ghost n C} {i : Fin n}
  {act : Action n C}

/-- Server `L` was elected for term `T` and is still in it. -/
def Leading (w : World n C) (L : Fin n) (T : Nat) : Prop :=
  Event.lead L T ∈ w.trace ∧ (w.nodes L).raft.currentTerm = T

instance (w : World n C) (L : Fin n) (T : Nat) [DecidableEq C] : Decidable (Leading w L T) :=
  inferInstanceAs (Decidable (_ ∧ _))

/-- Runs with all the states they went through before the present one. -/
def history (n : Nat) (C : Type) :
    System (InMemory (World n C) n C × List (World n C)) (Scheduled (Action n C)) :=
  (processes n C).record fun x _ => [x.state]

/-- The leader of term `T` has the entry in its log or its snapshot: it had it in one of the
states so far in which it led, and it has it in every state from now on in which it does. -/
structure InLeaderLog (past : List (World n C)) (x : InMemory (World n C) n C) (T : Nat)
    (e : RaftLogEntry C) : Prop where
  had : ∀ L, Event.lead L T ∈ x.state.trace →
    ∃ w ∈ past ++ [x.state], Leading w L T ∧ HasEntry (w.nodes L).raft e
  has : ∀ x', ((processes n C).startingAt x).Reach (timely crashFree) x' → ∀ L,
    Leading x'.state L T → HasEntry (x'.state.nodes L).raft e

/-! ### The future -/

/-- The replicated log moves on with the cluster. -/
theorem Rel.later (hrel : Rel w a) (hs : a.Sound RaftLogEntry.term)
    (hreach : (cluster n C).Reach crashFree w)
    (h : ((cluster n C).startingAt w).Reach crashFree w') :
    ∃ a' : Ghost n C, a'.Sound RaftLogEntry.term ∧ Evolves a a' ∧ Rel w' a' := by
  induction h with
  | init => exact ⟨a, hs, .refl a, hrel⟩
  | step hprev hfree hstep ih =>
    obtain ⟨a₁, hs₁, ev, hrel₁⟩ := ih
    obtain ⟨a', hs', hsucc, hrel'⟩ :=
      hrel₁.next hs₁ (System.reach_startingAt hreach hprev) hfree hstep
    exact ⟨a', hs', ev.trans hsucc.evolves, hrel'⟩

/-- The entry is in the log of the leader of term `T`, or committed in a term not after it. -/
def Pinned (a : Ghost n C) (T : Nat) (e : RaftLogEntry C) : Prop :=
  (a.leaderLog T)[e.index - 1]? = some e ∨
  ∃ Tc k, a.Committed Tc k ∧ Tc ≤ T ∧ 0 < e.index ∧ e.index ≤ k ∧
    (a.leaderLog Tc)[e.index - 1]? = some e

/-- Whoever leads the term then or later has the entry. -/
theorem Pinned.leaderLog {T : Nat} {e : RaftLogEntry C} (h : Pinned a T e)
    (hs : a.Sound RaftLogEntry.term) (hs' : a'.Sound RaftLogEntry.term) (ev : Evolves a a')
    (hled : a'.leader T ≠ none) : (a'.leaderLog T)[e.index - 1]? = some e := by
  rcases h with he | ⟨Tc, k, hc, hTc, hpos, hk, he⟩
  · exact ev.entry he
  · have hagree := hs'.covered_agree hled (ev.committed hs hc) hTc hk
    rw [hagree _ (Nat.zero_le _) (by omega)]
    exact ev.entry he

/-- A server in the term of the leader it knows has verified its entries up to
`LastNewEntryIndex`. -/
theorem Rel.pinned (h : Rel w a) (hs : a.Sound RaftLogEntry.term)
    (hleader : (w.nodes i).raft.leaderTerm = some (w.nodes i).raft.currentTerm)
    {e : RaftLogEntry C} (he : e ∈ (w.nodes i).raft.logs)
    (hle : e.index ≤ (w.nodes i).raft.lastNewEntryIndex) :
    0 < e.index ∧ Pinned a (w.nodes i).raft.currentTerm e := by
  obtain ⟨p, hp⟩ := List.getElem?_of_mem he
  have hindex := h.contiguous hs i p e hp
  rw [h.logs_getElem?, show (w.nodes i).raft.snapshotLastIncludedIndex + p = e.index - 1 by omega]
    at hp
  refine ⟨by omega, ?_⟩
  rcases (h.nodes i).tracks.verified hleader with hknown | ⟨hagree, -⟩
  · rcases hknown with hz | ⟨Tc, k, hc, hTc, hk, hagree⟩
    · omega
    · rw [(h.nodes i).stores.term] at hTc
      exact .inr ⟨Tc, k, hc, hTc, by omega, by omega,
        (hagree _ (Nat.zero_le _) (by omega)).symm.trans hp⟩
  · exact .inl ((hagree _ (Nat.zero_le _) (by omega)).symm.trans hp)

/-- A server that leads has the log that is on record for its term. -/
theorem Rel.hasEntry_of_leading (h : Rel w a) (hs : a.Sound RaftLogEntry.term) {L : Fin n}
    {T : Nat} (hlead : Leading w L T) {e : RaftLogEntry C} (hpos : 0 < e.index)
    (he : (a.leaderLog T)[e.index - 1]? = some e) : HasEntry (w.nodes L).raft e := by
  obtain ⟨hev, rfl⟩ := hlead
  refine h.hasEntry hpos ?_
  rw [(h.leads hs hev).log]
  exact he

/-! ### The past -/

/-- For every term that has or had a leader there is a state so far in which that leader led
and had everything that is on record for the term. -/
def Witnessed (past : List (World n C)) (w : World n C) (a : Ghost n C) : Prop :=
  ∀ T L, a.leader T = some L → ∃ w' ∈ past ++ [w], Leading w' L T ∧
    ∀ e, 0 < e.index → (a.leaderLog T)[e.index - 1]? = some e → HasEntry (w'.nodes L).raft e

/-- A leader adds to its log only while it leads, and the state after that shows it. -/
theorem Witnessed.next {past : List (World n C)} (h : Witnessed past w a)
    (hsucc : Succeeds a a') (hs' : a'.Sound RaftLogEntry.term) (hrel' : Rel w' a') :
    Witnessed (past ++ [w]) w' a' := by
  intro T L hL
  rcases hsucc.leads T L hL with hterm | ⟨hold, hlog⟩
  · have hlead : Leading w' L T :=
      ⟨hrel'.leaders T L hL, (hrel'.nodes L).stores.term.symm.trans hterm⟩
    exact ⟨w', List.mem_append_right _ (List.mem_singleton.mpr rfl), hlead,
      fun e hpos he => hrel'.hasEntry_of_leading hs' hlead hpos he⟩
  · obtain ⟨w₀, hmem, hlead, hall⟩ := h T L hold
    refine ⟨w₀, List.mem_append_left _ hmem, hlead, fun e hpos he => hall e hpos ?_⟩
    rw [← hlog]
    exact he

theorem exists_witnessed {s : World n C × List (World n C)}
    (h : ((cluster n C).record fun w _ => [w]).Reach (fun s act => crashFree s.1 act) s) :
    ∃ a : Ghost n C, a.Sound RaftLogEntry.term ∧ Rel s.1 a ∧ Witnessed s.2 s.1 a := by
  refine h.invariant (P := fun s => ∃ a : Ghost n C, a.Sound RaftLogEntry.term ∧ Rel s.1 a ∧
    Witnessed s.2 s.1 a) ⟨_, sound_empty _, rel_initial, nofun⟩ ?_
  rintro s act s' hreach ⟨a, hs, hrel, hwit⟩ hfree hstep
  obtain ⟨hstep, hpast⟩ := System.record_step.mp hstep
  obtain ⟨a', hs', hsucc, hrel'⟩ := hrel.next hs (System.reach_record hreach) hfree hstep
  rw [hpast]
  exact ⟨a', hs', hrel', hwit.next hsucc hs' hrel'⟩

/-- What a server has verified is in the log of the leader. -/
theorem inLeaderLog_of_verified {s : InMemory (World n C) n C × List (World n C)}
    (h : (history n C).Reach (fun s act => timely crashFree s.1 act) s)
    (hleader : (s.1.state.nodes i).raft.leaderTerm = some (s.1.state.nodes i).raft.currentTerm)
    {e : RaftLogEntry C} (he : e ∈ (s.1.state.nodes i).raft.logs)
    (hle : e.index ≤ (s.1.state.nodes i).raft.lastNewEntryIndex) :
    InLeaderLog s.2 s.1 (s.1.state.nodes i).raft.currentTerm e := by
  have hrecord := record_of_timely (fun _ => recovers_of_crashFree) (fun w _ => [w]) h
  obtain ⟨a, hs, hrel, hwit⟩ := exists_witnessed hrecord
  obtain ⟨hpos, hpinned⟩ := hrel.pinned hs hleader he hle
  refine ⟨fun L hev => ?_, fun x' hlater L hlead => ?_⟩
  · have hL : a.leader (s.1.state.nodes i).raft.currentTerm = some L := hrel.events _ hev
    obtain ⟨w₀, hmem, hlead, hall⟩ := hwit _ L hL
    refine ⟨w₀, hmem, hlead, hall e hpos (hpinned.leaderLog hs hs (.refl a) ?_)⟩
    rw [hL]
    exact Option.some_ne_none L
  · have hlater := later_of_timely (fun _ => recovers_of_crashFree) (System.reach_record h) hlater
    obtain ⟨a', hs', ev, hrel'⟩ := hrel.later hs (System.reach_record hrecord) hlater
    refine hrel'.hasEntry_of_leading hs' hlead hpos (hpinned.leaderLog hs hs' ev ?_)
    rw [show a'.leader _ = some L from hrel'.events _ hlead.1]
    exact Option.some_ne_none L

/-! ### Following the leader's commit index -/

theorem followCommit_cases (rf : Raft n C) (leaderCommit : Nat) :
    rf.followCommit leaderCommit = rf ∨ rf.followCommit leaderCommit =
      { rf with commitIndex := min leaderCommit rf.lastNewEntryIndex } := by
  unfold followCommit
  split
  · exact .inr rfl
  · exact .inl rfl

/-- Where `AppendEntries` assigns `CommitIndex`, it stays below `LastNewEntryIndex`, and the
sender leads the term. -/
theorem appendEntries_commits {rf rf' : Raft n C} {args : AppendEntriesArgs n C}
    {reply : AppendEntriesReply} (h : rf.appendEntries args = some (rf', reply))
    (hne : rf'.commitIndex ≠ rf.commitIndex) :
    rf'.leaderTerm = some args.term ∧ rf'.currentTerm = args.term ∧
      rf'.commitIndex ≤ rf'.lastNewEntryIndex := by
  rcases appendEntries_cases h with
    ⟨-, rfl, -⟩ | ⟨-, rfl, -⟩ | ⟨hle, -, -, rf₂, appended, hmerge, rfl⟩
  · exact absurd rfl hne
  · rw [acceptLeader_frame] at hne
    exact absurd rfl hne
  · have hleader := acceptLeader_leaderTerm rf args.term
    have hterm := acceptLeader_term rf hle
    have hsame : (acceptLeader rf args.term).1.commitIndex = rf.commitIndex := by
      rw [acceptLeader_frame]
    obtain ⟨logs, last, rfl, -⟩ := mergeEntries_shape hmerge
    rcases followCommit_cases { (acceptLeader rf args.term).1 with
      logs := logs, lastNewEntryIndex := last } args.leaderCommit with heq | heq <;>
      rw [heq] at hne ⊢
    · refine absurd ?_ hne
      split <;> exact hsame
    · split <;> exact ⟨hleader, hterm, Nat.min_le_right _ _⟩

/-- **`LastNewEntryIndex` is sound.** In every state of a timely run without a crash, the leader of
a server's term has every entry that the server retains up to `LastNewEntryIndex`, provided
`LeaderTerm` is that term. A request that assigns `CommitIndex` therefore marks no entry as
committed that differs from the leader's. -/
theorem verified_in_leader_log {s : InMemory (World n C) n C × List (World n C)}
    (h : (history n C).Reach (fun s act => timely crashFree s.1 act) s) :
    (∀ i T e, (s.1.state.nodes i).raft.state = .follower →
      (s.1.state.nodes i).raft.currentTerm = T → (s.1.state.nodes i).raft.leaderTerm = some T →
      e ∈ (s.1.state.nodes i).raft.logs →
      e.index ≤ (s.1.state.nodes i).raft.lastNewEntryIndex → InLeaderLog s.2 s.1 T e) ∧
    (∀ k c args b x', s.1.state.calls[k]? = some c → c.args = .appendEntries args →
      b.act = .handle k → timely crashFree s.1 b → (processes n C).step s.1 b = some x' →
      (x'.state.nodes c.dst).raft.commitIndex ≠ (s.1.state.nodes c.dst).raft.commitIndex →
      ∀ e ∈ (x'.state.nodes c.dst).raft.logs,
        e.index ≤ (x'.state.nodes c.dst).raft.commitIndex →
        InLeaderLog (s.2 ++ [s.1.state]) x' args.term e) := by
  refine ⟨?_, ?_⟩
  · rintro i T e - rfl hleader he hle
    exact inLeaderLog_of_verified h hleader he hle
  · intro k c args b x' hk hargs hact htimely hstep hne e he hle
    have hreach : (history n C).Reach (fun s act => timely crashFree s.1 act)
        (x', s.2 ++ [s.1.state]) :=
      .step h htimely (System.record_step.mpr ⟨hstep, rfl⟩)
    have hstep := step_of_timely (fun _ => recovers_of_crashFree) (System.reach_record h)
      htimely.2 hstep
    rw [hact] at hstep
    obtain ⟨reply, happ⟩ := handle_appendEntries hk hargs hstep
    obtain ⟨hleader, hterm, hcommit⟩ := appendEntries_commits happ hne
    rw [← hterm] at hleader ⊢
    exact inLeaderLog_of_verified hreach hleader he (Nat.le_trans hle hcommit)

/-- Server `i` leads term 1, and server `j` has its entry. -/
def oneEntry (i j : Fin n) : List (Action n Nat) :=
  [.electionTimeout i, .handle 0, .ret 0, .start i 10, .replicateLog i j 1, .handle 4]

theorem oneEntry_runs :
    (((history 3 Nat).runWhere (fun s act => timely crashFree s.1 act) (history 3 Nat).init
        (scheduled [] (oneEntry 0 1))).map fun s =>
      decide ((s.1.state.nodes 1).raft.state = .follower ∧
        (s.1.state.nodes 1).raft.currentTerm = 1 ∧
        (s.1.state.nodes 1).raft.leaderTerm = some 1 ∧
        (s.1.state.nodes 1).raft.lastNewEntryIndex = 1 ∧
        ⟨10, 1, 1⟩ ∈ (s.1.state.nodes 1).raft.logs)) = some true := by
  decide +kernel

theorem verified_in_leader_log_oneEntry :
    ∃ s : InMemory (World 3 Nat) 3 Nat × List (World 3 Nat),
    (history 3 Nat).Reach (fun s act => timely crashFree s.1 act) s ∧
    ⟨10, 1, 1⟩ ∈ (s.1.state.nodes 1).raft.logs ∧ InLeaderLog s.2 s.1 1 ⟨10, 1, 1⟩ := by
  obtain ⟨s, hreach, hstate, hterm, hleader, hlast, hentry⟩ :=
    System.exists_reach_of_runWhere oneEntry_runs
  refine ⟨s, hreach, hentry,
    (verified_in_leader_log hreach).1 1 1 _ hstate hterm hleader hentry ?_⟩
  rw [hlast]

/-- Server 0 led term 1 and never had the entry that server 6 has from it. -/
theorem overwritten_unverified :
    (((history 7 Nat).runWhere (fun s act => anytime crashFree s.1 act) (history 7 Nat).init
        (overwritten 0 1 2 6)).map fun s =>
      decide ((s.1.state.nodes 6).raft.state = .follower ∧
        (s.1.state.nodes 6).raft.currentTerm = 1 ∧
        (s.1.state.nodes 6).raft.leaderTerm = some 1 ∧
        (s.1.state.nodes 6).raft.lastNewEntryIndex = 3 ∧
        ⟨20, 2, 1⟩ ∈ (s.1.state.nodes 6).raft.logs ∧ .lead 0 1 ∈ s.1.state.trace ∧
        ∀ w ∈ s.2 ++ [s.1.state], ¬ (Leading w 0 1 ∧ HasEntry (w.nodes 0).raft ⟨20, 2, 1⟩))) =
      some true := by
  decide +kernel

/-- With requests encoded late, a server can take for verified what its leader never had. -/
theorem verified_not_in_leader_log :
    ¬ ∀ s : InMemory (World 7 Nat) 7 Nat × List (World 7 Nat),
    (history 7 Nat).Reach (fun s act => anytime crashFree s.1 act) s →
    ∀ i T e, (s.1.state.nodes i).raft.state = .follower →
      (s.1.state.nodes i).raft.currentTerm = T → (s.1.state.nodes i).raft.leaderTerm = some T →
      e ∈ (s.1.state.nodes i).raft.logs →
      e.index ≤ (s.1.state.nodes i).raft.lastNewEntryIndex → InLeaderLog s.2 s.1 T e := by
  intro hall
  obtain ⟨s, hreach, hstate, hterm, hleader, hlast, hentry, hlead, hnever⟩ :=
    System.exists_reach_of_runWhere overwritten_unverified
  have hin := hall s hreach 6 1 _ hstate hterm hleader hentry
    (by rw [hlast]; decide)
  obtain ⟨w, hw, hboth⟩ := hin.had 0 hlead
  exact hnever w hw hboth

end RaftLabs.Raft
