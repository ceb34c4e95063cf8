import RaftLabs.Raft.Simulation

/-! A server as a voter and a follower: the handlers of its peers' requests, the
service's snapshots and the apply loop. -/
namespace RaftLabs.Raft
open Lib World ReplicatedLog
variable {n : Nat} {C : Type} {w w' : World n C} {a a' : Ghost n C} {i : Fin n}

/-! ### RequestVote -/

/-- A vote is backed by the log of the voter: it ends no later than the candidate's. -/
theorem Rel.requestVote (h : Rel w a) (hs : a.Sound RaftLogEntry.term) {k : Nat} {c : Call n C}
    {args : RequestVoteArgs n} (hk : w.calls[k]? = some c) (hargs : c.args = .requestVote args) :
    ∃ a' : Ghost n C, a'.Sound RaftLogEntry.term ∧ Succeeds a a' ∧
      Rel (((w.setRaft c.dst ((w.nodes c.dst).raft.requestVote args).1).advance k c
          (.handled (.requestVote ((w.nodes c.dst).raft.requestVote args).2))).observe
        (if ((w.nodes c.dst).raft.requestVote args).2.voteGranted then
          [.vote c.dst args.candidateId args.term] else [])) a' := by
  have hn := h.nodes c.dst
  have hrf := SameLog.requestVote hn.tracks.leaderTerm args
  have hv := hrf.voterStep hs hn.stores
  obtain ⟨hterm, hindex⟩ := h.last_log hs c.dst
  have hc := (callRel_vote hargs).mp (h.calls c (List.mem_of_getElem? hk))
  have hc' := VoteCall.evolve hs hv.evolves hc
  have hrel := h.sameLogRaft hs hrf
  refine ⟨_, hv.sound, .ofVoter hv, (hrel.advance ?_).observe fun e he => ?_⟩
  · apply (callRel_vote ?_).mpr
    case _ : c.args = .requestVote args => exact hargs
    refine ⟨hc'.reached, hc'.log, fun reply hr hg => ?_⟩
    cases hr
    rcases requestVote_cases (w.nodes c.dst).raft args with ⟨hno, _⟩ | ⟨_, hle, _, hlog, heq⟩
    · rw [hno] at hg
      cases hg
    · have hsaved : ((w.nodes c.dst).raft.requestVote args).1.savedTerm = args.term := by
        rw [heq, savedTerm_persist]
        dsimp only
        split
        · rfl
        · omega
      refine ⟨?_, fun T i hT hown hch hack => ?_⟩
      · rw [setTerm_voter_self]
        exact Nat.le_of_eq hsaved.symm
      · have hkeep := ((hv.sound.voters c.dst).keep T i hown hch (.inl hack)).2.2
        rw [setTerm_voter_self] at hkeep
        unfold EndsAfter at hkeep
        dsimp only at hkeep
        rw [← hterm, ← hindex] at hkeep
        omega
  · split at he
    · rw [List.mem_singleton.mp he]
      trivial
    · cases he

/-! ### Accepting a leader -/

/-- A server answers a request. -/
theorem Rel.answer (h : Rel w a) (hs : a.Sound RaftLogEntry.term) {k : Nat} {c : Call n C}
    {p : Progress} {rf' : Raft n C} (hv : VoterStep RaftLogEntry.term a a' c.dst)
    (hstores : Stores (a'.voter c.dst) rf') (htracks : Tracks a' c.dst rf')
    (hcall : CallRel a' { c with progress := p }) :
    Rel ((w.setRaft c.dst rf').advance k c p) a' :=
  (h.stepRaft hs hv hstores htracks).advance hcall

/-- A voter that has accepted the leader of a term, with `d` as its term on disk. -/
structure Accepted (a a₁ : Ghost n C) (i : Fin n) (rf₁ : Raft n C) (d : Nat) : Prop where
  step : VoterStep RaftLogEntry.term a a₁ i
  holds : Holds (a₁.voter i) rf₁
  tracks : Tracks a₁ i rf₁
  durable : (a₁.voter i).durable = d

/-- The term is on disk if the state is saved in the end, and before that nothing is. -/
theorem exists_accepted {rf : Raft n C} {T d : Nat} (hs : a.Sound RaftLogEntry.term)
    (hst : Stores (a.voter i) rf) (htr : Tracks a i rf) (hle : rf.currentTerm ≤ T)
    (hd : d = T ∨ d = rf.savedTerm) : ∃ a₁, Accepted a a₁ i (acceptLeader rf T).1 d := by
  have hrf : SameLog rf _ := .acceptLeader hle
  have hdur := (hs.voters i).durable_le
  have h1 := hst.term
  have h2 := hst.durable
  have hv : VoterStep RaftLogEntry.term a (a.setTerm i d T) i :=
    .setTerm hs (by omega) (by omega) (by omega)
  refine ⟨_, hv, ?_, hrf.tracks hs hst htr hv ?_, ?_⟩ <;> rw [setTerm_voter_self]
  exact ⟨(acceptLeader_term rf hle).symm, hst.snap.trans hrf.snap.symm,
    hst.logs.trans hrf.logs.symm, hst.snapTerm.trans hrf.snapTerm.symm⟩

/-! ### AppendEntries -/

section Merge
variable {rf : Raft n C} {args : AppendEntriesArgs n C} {L : Fin n}
variable (hs : a.Sound RaftLogEntry.term) (hst : Holds (a.voter i) rf) (hent : EntriesOf a args)
include hs hst

/-- An entry of the leader's term and index in the log ends a slice of the leader's. -/
theorem agree_of_entry {T p : Nat} {old e : RaftLogEntry C}
    (hp : rf.snapshotLastIncludedIndex ≤ p)
    (hold : rf.logs[p - rf.snapshotLastIncludedIndex]? = some old)
    (he : (a.leaderLog T)[p]? = some e) (hterm : old.term = e.term) :
    AgreeOn (a.voter i).log (a.leaderLog T) (a.voter i).snap (p + 1) := by
  rw [← hst.logs, List.getElem?_drop, hst.snap, Nat.add_sub_cancel' hp] at hold
  exact hs.log_matching hold (by rw [hst.snap]; exact hp) he hterm

include hent

/-- What the check of `PrevLogIndex` says about the log. -/
theorem agree_of_prev (hprev : checkPrev rf args = some .matched)
    (hlt : rf.snapshotLastIncludedIndex < args.prevLogIndex) :
    AgreeOn (a.voter i).log (a.leaderLog args.term) (a.voter i).snap args.prevLogIndex := by
  rcases checkPrev_matched hprev with hle | ⟨_, old, hold, hterm⟩
  · omega
  · have hlen := hent.length
    obtain ⟨e, he, heT⟩ := lastTerm_take (by omega : 0 < args.prevLogIndex)
      (by omega : args.prevLogIndex ≤ (a.leaderLog args.term).length)
    rw [hent.prevTerm, heT] at hterm
    rw [show args.prevLogIndex - rf.snapshotLastIncludedIndex - 1 =
      args.prevLogIndex - 1 - rf.snapshotLastIncludedIndex by omega] at hold
    have := agree_of_entry hs hst (by omega) hold he hterm
    rwa [Nat.sub_add_cancel (by omega)] at this

/-- The log agrees with the leader's as far as the merge loop came. -/
theorem agree_of_scan (hprev : checkPrev rf args = some .matched) {m : Nat}
    (hm : m ≤ args.entries.length)
    (hsame : ∀ j < m, ∀ e, args.entries[j]? = some e →
      rf.snapshotLastIncludedIndex ≤ args.prevLogIndex + j →
      ∃ old, rf.logs[args.prevLogIndex + j - rf.snapshotLastIncludedIndex]? = some old ∧
        old.term = e.term)
    (hlt : rf.snapshotLastIncludedIndex < args.prevLogIndex + m) :
    AgreeOn (a.voter i).log (a.leaderLog args.term) (a.voter i).snap (args.prevLogIndex + m) := by
  cases m with
  | zero => exact agree_of_prev hs hst hent hprev hlt
  | succ j =>
    have he := List.getElem?_eq_getElem (by omega : j < args.entries.length)
    obtain ⟨old, hold, hterm⟩ := hsame j (Nat.lt_succ_self j) _ he (by omega)
    show AgreeOn _ _ _ (args.prevLogIndex + j + 1)
    refine agree_of_entry hs hst (by omega) hold ?_ hterm
    rw [← hent.entries j (by omega)]
    exact he

omit hs hst in
/-- Positions of the request are positions of the leader's log. -/
theorem entries_getElem? (j : Nat) (hj : j < args.entries.length) :
    (a.leaderLog args.term)[args.prevLogIndex + j]? = some args.entries[j] := by
  rw [← hent.entries j hj]
  exact List.getElem?_eq_getElem hj

omit hs in
/-- The cut log with the rest of the request appended is the leader's. -/
theorem merged_logs {m : Nat} (hm : m ≤ args.entries.length)
    (hlo : rf.snapshotLastIncludedIndex ≤ args.prevLogIndex + m)
    (hhi : args.prevLogIndex + m ≤ rf.snapshotLastIncludedIndex + rf.logs.length)
    (hagree : AgreeOn (a.voter i).log (a.leaderLog args.term) (a.voter i).snap
      (args.prevLogIndex + m)) :
    ((a.leaderLog args.term).take (args.prevLogIndex + args.entries.length)).drop (a.voter i).snap =
      rf.logs.take (args.prevLogIndex + m - rf.snapshotLastIncludedIndex) ++
        args.entries.drop m := by
  have hsnap := hst.snap
  have hlen := hent.length
  apply List.ext_getElem?
  intro p
  rw [List.getElem?_drop, List.getElem?_append, List.length_take, Nat.min_eq_left (by omega)]
  split
  · rename_i hp
    rw [List.getElem?_take_of_lt hp, List.getElem?_take_of_lt (by omega), ← hst.logs,
      List.getElem?_drop]
    exact (hagree _ (by omega) (by omega)).symm
  · rename_i hp
    rw [List.getElem?_drop]
    by_cases hj : m + (p - (args.prevLogIndex + m - rf.snapshotLastIncludedIndex)) <
        args.entries.length
    · rw [hent.entries _ hj, List.getElem?_take_of_lt (by omega)]
      congr 1
      omega
    · rw [List.getElem?_eq_none (by rw [List.length_take]; omega), List.getElem?_eq_none (by omega)]

end Merge

/-- A voter in the term of a request, after the merge. -/
structure Merged (a a' : Ghost n C) (i : Fin n) (args : AppendEntriesArgs n C) (rf₂ : Raft n C) :
    Prop where
  step : VoterStep RaftLogEntry.term a a' i
  term : (a'.voter i).term = (a.voter i).term
  durable : (a'.voter i).durable = (a.voter i).durable
  snap : (a'.voter i).snap = (a.voter i).snap
  logs : (a'.voter i).log.drop (a'.voter i).snap = rf₂.logs
  compacted : AgreeOn (a'.voter i).log (a.voter i).log 0 (a.voter i).snap
  verified : a'.Follows i args.term rf₂.lastNewEntryIndex
  success : args.prevLogIndex + args.entries.length ≤ (a'.voter i).acked args.term ∨
    a'.Covered args.term (args.prevLogIndex + args.entries.length)

section MergeStep
variable {rf rf₂ : Raft n C} {args : AppendEntriesArgs n C} {L : Fin n}
variable (hs : a.Sound RaftLogEntry.term) (hst : Holds (a.voter i) rf) (htr : Tracks a i rf)
variable (hent : EntriesOf a args) (hled : a.leader args.term = some L)
variable (hterm : rf.currentTerm = args.term) (hlead : rf.leaderTerm = some args.term)
include hs hst htr hled hterm hlead

/-- The verified index of a follower is the leader's, in the term of the request. -/
theorem follows_verified : a.Follows i args.term rf.lastNewEntryIndex := by
  have hne : a.leader args.term ≠ none := by
    rw [hled]
    exact Option.some_ne_none L
  rcases htr.verified (by rw [hterm]; exact hlead) with hk | hf
  · exact hs.follows_of_known hk hne (by rw [hst.term, hterm])
  · rw [← hterm]
    exact hf

include hent

/-- A log that needs no change is confirmed. -/
theorem exists_merged_same (hlogs : rf₂.logs = rf.logs)
    (hlast : rf₂.lastNewEntryIndex = rf.lastNewEntryIndex ∨ rf₂.lastNewEntryIndex =
      max rf.lastNewEntryIndex (args.prevLogIndex + args.entries.length))
    (hagree : rf.snapshotLastIncludedIndex < args.prevLogIndex + args.entries.length →
      AgreeOn (a.voter i).log (a.leaderLog args.term) (a.voter i).snap
        (args.prevLogIndex + args.entries.length)) :
    ∃ a', Merged a a' i args rf₂ := by
  have hne : a.leader args.term ≠ none := by
    rw [hled]
    exact Option.some_ne_none L
  have hver := follows_verified hs hst htr hled hterm hlead
  have hT : (a.voter i).term = args.term := by rw [hst.term, hterm]
  have hdur : (a.voter i).durable ≤ args.term := hT ▸ (hs.voters i).durable_le
  by_cases hlt : (a.voter i).snap < args.prevLogIndex + args.entries.length
  · have hag := hagree (by rw [← hst.snap]; exact hlt)
    have hall := (hs.compacted_agree hdur hne).join hag
    have hv := VoterStep.confirm hs hne hdur hlt hent.length hag
    have hlogeq : AgreeOn ((a.confirm i args.term (args.prevLogIndex + args.entries.length)).voter
        i).log (a.voter i).log 0 (max rf.lastNewEntryIndex
          (args.prevLogIndex + args.entries.length)) := by
      rw [confirm_voter_self]
      exact .refl _ _ _
    refine ⟨_, hv, ?_, ?_, ?_, ?_, ?_, ?_, .inl ?_⟩
    · rw [confirm_voter_self]
    · rw [confirm_voter_self]
    · rw [confirm_voter_self]
    · rw [confirm_voter_self, hlogs]
      exact hst.logs
    · rw [confirm_voter_self]
      exact .refl _ _ _
    · rcases hlast with heq | heq <;> rw [heq]
      · exact hver.evolve hv.evolves (hlogeq.mono (Nat.le_refl 0) (Nat.le_max_left _ _))
      · exact (hver.max ⟨hall, hent.length⟩).evolve hv.evolves hlogeq
    · rw [confirm_voter_self]
      dsimp only
      rw [Function.update_self]
      exact Nat.le_max_right _ _
  · -- the request lies in the snapshot
    have hk : a.Known i (args.prevLogIndex + args.entries.length) :=
      hs.known_snap.mono (Nat.le_of_not_lt hlt)
    refine ⟨a, .refl hs, rfl, rfl, rfl, hst.logs.trans hlogs.symm, .refl _ _ _, ?_, .inr ?_⟩
    · rcases hlast with heq | heq <;> rw [heq]
      · exact hver
      · exact hver.max (hs.follows_of_known hk hne (Nat.le_of_eq hT))
    · exact hk.covered.mono (Nat.le_of_eq hT) (Nat.le_refl _)

/-- Steps 3 and 4 of `AppendEntries` on a server that is in the leader's term. -/
theorem exists_merged (hL : L ≠ i) (hprev : checkPrev rf args = some .matched) {appended : Bool}
    (hm : mergeEntries rf args = some (rf₂, appended))
    (hdur : appended = true → (a.voter i).durable = args.term) : ∃ a', Merged a a' i args rf₂ := by
  rcases mergeEntries_cases hm with ⟨hnil, rfl, _⟩ | ⟨m, hmlen, hne, hsame, hcase⟩
  · refine exists_merged_same hs hst htr hent hled hterm hlead rfl (.inl rfl) fun hlt => ?_
    rw [hnil, List.length_nil, Nat.add_zero] at hlt ⊢
    exact agree_of_prev hs hst hent hprev hlt
  · rcases hcase with ⟨rfl, _, rfl⟩ | ⟨hlt, happ, hlo, hhi, hstop, rfl⟩
    · exact exists_merged_same hs hst htr hent hled hterm hlead rfl (.inr rfl) fun hlt =>
        agree_of_scan hs hst hent hprev hmlen hsame hlt
    · have hnone : a.leader args.term ≠ none := by
        rw [hled]
        exact Option.some_ne_none L
      have hT : (a.voter i).term = args.term := by rw [hst.term, hterm]
      have hdur := hdur happ
      have hsnap := hst.snap
      have hag : AgreeOn (a.voter i).log (a.leaderLog args.term) (a.voter i).snap
          (args.prevLogIndex + m) := by
        by_cases hsn : rf.snapshotLastIncludedIndex < args.prevLogIndex + m
        · exact agree_of_scan hs hst hent hprev hmlen hsame hsn
        · intro j hj hjm
          omega
      -- the entry the loop stopped at is not the server's
      have hdiff : ¬ AgreeOn (a.voter i).log (a.leaderLog args.term) (a.voter i).snap
          (args.prevLogIndex + args.entries.length) := by
        intro hall
        refine hstop _ (List.getElem?_eq_getElem hlt) ?_
        rw [← hst.logs, List.getElem?_drop, hsnap, Nat.add_sub_cancel' hlo,
          hall _ (by omega) (by omega)]
        exact entries_getElem? hent m hlt
      have hv := VoterStep.replace hs hled hL hdur hT (by omega) hent.length hdiff
      have hver := follows_verified hs hst htr hled hterm hlead
      have hcomp := hs.compacted_agree (Nat.le_of_eq hdur) hnone
      refine ⟨_, hv, ?_, ?_, ?_, ?_, ?_, ?_, .inl ?_⟩
      · rw [replace_voter_self]
      · rw [replace_voter_self]
      · rw [replace_voter_self]
      · rw [replace_voter_self]
        exact merged_logs hst hent hmlen hlo hhi hag
      · exact replace_log_agree hdiff hcomp
      · refine Follows.max ?_ ⟨?_, ?_⟩
        · exact hver.evolve hv.evolves (replace_log_agree hdiff hver.1)
        · rw [replace_voter_self]
          exact fun j _ hj => List.getElem?_take_of_lt hj
        · exact hent.length
      · rw [replace_voter_self]
        dsimp only
        rw [Function.update_self]
        exact Nat.le_max_right _ _

end MergeStep

/-- Step 5 on a follower whose verified index is the leader's. -/
theorem known_followCommit {rf : Raft n C} {T lc : Nat} (hs : a.Sound RaftLogEntry.term)
    (hled : a.leader T ≠ none) (hT : (a.voter i).term = T) (hk : a.Known i rf.commitIndex)
    (hcov : a.Covered T lc) (hver : a.Follows i T rf.lastNewEntryIndex) :
    a.Known i (rf.followCommit lc).commitIndex := by
  unfold followCommit
  split
  · refine hs.known_of_covered (hcov.mono (Nat.le_refl T) (Nat.min_le_left _ _)) hled hT ?_
    exact hver.1.mono (Nat.le_refl 0) (Nat.min_le_right _ _)
  · exact hk

/-- The state after a merge: saved when the term or the log changed. -/
theorem merged_stores {rf rf₂ : Raft n C} {args : AppendEntriesArgs n C} {appended : Bool}
    {a₁ a₂ : Ghost n C} (hst : Stores (a.voter i) rf) (hle : rf.currentTerm ≤ args.term)
    (hm : mergeEntries (acceptLeader rf args.term).1 args = some (rf₂, appended))
    (hholds : Holds (a₁.voter i) (acceptLeader rf args.term).1)
    (hdur : (a₁.voter i).durable = if (acceptLeader rf args.term).2 || appended then args.term
      else rf.savedTerm) (hmerged : Merged a₁ a₂ i args rf₂) (lc : Nat) :
    Stores (a₂.voter i) (if (acceptLeader rf args.term).2 || appended then
      (rf₂.followCommit lc).persist else rf₂.followCommit lc) := by
  have hterm := acceptLeader_term rf hle
  obtain ⟨logs, last, rfl, hlogs⟩ := mergeEntries_shape hm
  obtain ⟨commit, hcommit⟩ := followCommit_shape
    { (acceptLeader rf args.term).1 with logs := logs, lastNewEntryIndex := last } lc
  have hsnapTerm : lastTerm RaftLogEntry.term ((a₂.voter i).log.take (a₂.voter i).snap) =
      (acceptLeader rf args.term).1.snapshotLastIncludedTerm := by
    rw [← hholds.snapTerm, hmerged.snap, take_eq_of_agree hmerged.compacted]
  have hholds₂ : Holds (a₂.voter i) { (acceptLeader rf args.term).1 with
      logs := logs, lastNewEntryIndex := last, commitIndex := commit } :=
    ⟨hmerged.term.trans hholds.term, hmerged.snap.trans hholds.snap, hmerged.logs, hsnapTerm⟩
  rw [hcommit]
  split
  · rename_i hsave
    rw [if_pos hsave] at hdur
    exact ⟨⟨hholds₂.term, hholds₂.snap, hholds₂.logs, hholds₂.snapTerm⟩,
      (hmerged.durable.trans hdur).trans hterm.symm, rfl, rfl⟩
  · rename_i hsave
    rw [if_neg hsave] at hdur
    have happ : appended = false := by
      cases appended
      · rfl
      · simp at hsave
    have hlogs := hlogs happ
    subst hlogs
    rw [acceptLeader_frame rf args.term] at hholds₂ ⊢
    exact ⟨hholds₂, hmerged.durable.trans hdur, hst.savedLogs, hst.savedSnap⟩

theorem merged_tracks {rf₁ rf₂ : Raft n C} {args : AppendEntriesArgs n C} {appended : Bool}
    {a₁ a₂ : Ghost n C} {L : Fin n} (hs : a₁.Sound RaftLogEntry.term)
    (hholds : Holds (a₁.voter i) rf₁) (htr : Tracks a₁ i rf₁)
    (hled : a₁.leader args.term = some L) (hL : L ≠ i) (hterm : rf₁.currentTerm = args.term)
    (hm : mergeEntries rf₁ args = some (rf₂, appended))
    (hcov : a₂.Covered args.term args.leaderCommit) (hmerged : Merged a₁ a₂ i args rf₂) :
    Tracks a₂ i (rf₂.followCommit args.leaderCommit) := by
  have hv := hmerged.step
  have hled₂ := hv.evolves.leader _ _ hled
  have hne : a₂.leader args.term ≠ none := by
    rw [hled₂]
    exact Option.some_ne_none _
  have hT : (a₂.voter i).term = args.term := by rw [hmerged.term, hholds.term, hterm]
  obtain ⟨logs, last, heq, _⟩ := mergeEntries_shape hm
  have hk : a₂.Known i rf₂.commitIndex := by
    rw [heq]
    exact hv.known _ htr.commit
  have hcommit := known_followCommit hv.sound hne hT hk hcov hmerged.verified
  have hver := hmerged.verified
  obtain ⟨commit, hshape⟩ := followCommit_shape rf₂ args.leaderCommit
  rw [hshape] at hcommit ⊢
  subst heq
  refine ⟨hcommit, hv.known _ htr.applied, htr.snap_le,
    htr.snapshotMsg.evolve hs hv.evolves hv.known, htr.leaderTerm, fun _ => .inr ?_, fun hself j => ?_⟩
  · rw [← hterm] at hver
    exact hver
  · rw [← hterm] at hled₂
    exact absurd (Option.some.inj (hled₂.symm.trans hself)) hL

/-- A request that passes the check of `PrevLogIndex`. -/
theorem Rel.appendEntries_matched (h : Rel w a) (hs : a.Sound RaftLogEntry.term) {k : Nat}
    {c : Call n C} {args : AppendEntriesArgs n C} {p : Progress} {rf₂ : Raft n C} {appended : Bool}
    (hn : NodeRel a c.dst (w.nodes c.dst)) (hc : EntriesCall a c args) (hremote : c.dst ≠ c.src)
    (hle : (w.nodes c.dst).raft.currentTerm ≤ args.term)
    (hprev : checkPrev (acceptLeader (w.nodes c.dst).raft args.term).1 args = some .matched)
    (hm : mergeEntries (acceptLeader (w.nodes c.dst).raft args.term).1 args = some (rf₂, appended))
    (hcall : ∀ {a' : Ghost n C}, Evolves a a' →
      (args.prevLogIndex + args.entries.length ≤ (a'.voter c.dst).acked args.term ∨
        a'.Covered args.term (args.prevLogIndex + args.entries.length)) →
      CallRel a' { c with progress := p }) :
    ∃ a' : Ghost n C, a'.Sound RaftLogEntry.term ∧ Succeeds a a' ∧
      Rel ((w.setRaft c.dst
        (if (acceptLeader (w.nodes c.dst).raft args.term).2 || appended then
          (rf₂.followCommit args.leaderCommit).persist
        else rf₂.followCommit args.leaderCommit)).advance k c p) a' := by
  generalize hsave : ((acceptLeader (w.nodes c.dst).raft args.term).2 || appended) = save
  have hterm := acceptLeader_term _ hle
  have hlead := acceptLeader_leaderTerm (w.nodes c.dst).raft args.term
  obtain ⟨a₁, hacc⟩ := exists_accepted (d := if save then args.term else
    (w.nodes c.dst).raft.savedTerm) hs hn.stores hn.tracks hle (by cases save <;> simp)
  have hv₁ := hacc.step
  have hled₁ := hv₁.evolves.leader _ _ hc.leader
  obtain ⟨a₂, hmerged⟩ := exists_merged hv₁.sound hacc.holds hacc.tracks
    (hc.entries.evolve hs hv₁.evolves) hled₁ hterm hlead (Ne.symm hremote) hprev hm fun happ => by
      rw [hacc.durable, if_pos]
      rw [← hsave, happ, Bool.or_true]
  have hv := hv₁.trans hmerged.step
  have hstores : Stores (a₂.voter c.dst) (if save then
      (rf₂.followCommit args.leaderCommit).persist else rf₂.followCommit args.leaderCommit) := by
    subst hsave
    exact merged_stores hn.stores hle hm hacc.holds hacc.durable hmerged _
  have htracks := merged_tracks hv₁.sound hacc.holds hacc.tracks hled₁ (Ne.symm hremote) hterm hm
    (hc.entries.commit.evolve hs hv.evolves) hmerged
  refine ⟨a₂, hv.sound, .ofVoter hv, h.answer hs hv hstores ?_ (hcall hv.evolves hmerged.success)⟩
  split
  · exact ⟨htracks.commit, htracks.applied, htracks.snap_le, htracks.snapshotMsg,
      htracks.leaderTerm, htracks.verified, htracks.matched⟩
  · exact htracks

/-- The follower's side of `AppendEntries`. -/
theorem Rel.appendEntries (h : Rel w a) (hs : a.Sound RaftLogEntry.term) {k : Nat} {c : Call n C}
    {args : AppendEntriesArgs n C} (hk : w.calls[k]? = some c)
    (hargs : c.args = .appendEntries args) (hremote : c.dst ≠ c.src) {rf' : Raft n C}
    {reply : AppendEntriesReply}
    (happ : (w.nodes c.dst).raft.appendEntries args = some (rf', reply)) :
    ∃ a' : Ghost n C, a'.Sound RaftLogEntry.term ∧ Succeeds a a' ∧
      Rel ((w.setRaft c.dst rf').advance k c (.handled (.appendEntries reply))) a' := by
  have hn := h.nodes c.dst
  have hc := (callRel_entries hargs).mp (h.calls c (List.mem_of_getElem? hk))
  -- the call after a reply that is no success, or one that was earned
  have hcall : ∀ {a' : Ghost n C}, Evolves a a' → (reply.success = true →
      args.prevLogIndex + args.entries.length ≤ (a'.voter c.dst).acked args.term ∨
        a'.Covered args.term (args.prevLogIndex + args.entries.length)) →
      CallRel a' { c with progress := .handled (.appendEntries reply) } := by
    intro a' ev hsucc
    apply (callRel_entries ?_).mpr
    case _ : c.args = .appendEntries args => exact hargs
    refine ⟨ev.leader _ _ hc.leader, hc.entries.evolve hs ev, fun r hr hok => ?_⟩
    cases hr
    exact hsucc hok
  rcases appendEntries_cases happ with
    ⟨_, rfl, rfl⟩ | ⟨hle, rfl, term, index, _, rfl⟩ | ⟨hle, hprev, rfl, rf₂, appended, hm, rfl⟩
  · -- a stale request
    exact ⟨a, hs, .refl a, h.answer hs (.refl hs) hn.stores hn.tracks (hcall (.refl a) nofun)⟩
  · -- a conflict: the term is raised, but not on disk
    have hrf : SameLog (w.nodes c.dst).raft _ := .acceptLeader hle
    have hv := hrf.voterStep hs hn.stores
    refine ⟨_, hv.sound, .ofVoter hv,
      h.answer hs hv (hrf.stores hn.stores) ?_ (hcall hv.evolves nofun)⟩
    refine hrf.tracks hs hn.stores hn.tracks hv ?_
    rw [setTerm_voter_self]
  · exact h.appendEntries_matched hs hn hc hremote hle hprev hm fun ev hsucc => hcall ev fun _ => hsucc

/-! ### InstallSnapshot -/

section Install
variable {rf₁ : Raft n C} {args : InstallSnapshotArg n} {saved : RaftState n C} {a₁ : Ghost n C}
variable (hs : a₁.Sound RaftLogEntry.term) (hst : Holds (a₁.voter i) rf₁)
variable (hled : a₁.leader args.term ≠ none) (hcov : a₁.Covered args.term args.lastIncludedIndex)
variable (hsnap : rf₁.snapshotLastIncludedIndex < args.lastIncludedIndex)
include hs hst hled hcov hsnap

/-- The leader's prefix in place of the log's, with the rest of the log after it. -/
theorem install_stores (hdur : (a₁.voter i).durable = rf₁.currentTerm)
    (hlast : args.lastIncludedTerm =
      lastTerm RaftLogEntry.term ((a₁.leaderLog args.term).take args.lastIncludedIndex))
    (hsaved : makeRaftState rf₁ (args.lastIncludedIndex + 1) = some saved)
    (hcont : Contiguous rf₁.snapshotLastIncludedIndex rf₁.logs) (msg : ApplyMsg C)
    (commit applied : Nat) :
    Stores ((a₁.install i args.term args.lastIncludedIndex).voter i) { rf₁ with
      snapshotMsg := msg
      persister := { raftstate := some saved, snapshot := args.data }
      logs := saved.logs
      snapshotLastIncludedIndex := args.lastIncludedIndex
      snapshotLastIncludedTerm := args.lastIncludedTerm
      commitIndex := commit
      lastApplied := applied } := by
  obtain ⟨hlogs, hindex, -⟩ := makeRaftState_log hsaved hcont
  have hlen : ((a₁.leaderLog args.term).take args.lastIncludedIndex).length =
      args.lastIncludedIndex := by
    have := hs.covered_le_length hled hcov
    rw [List.length_take]
    omega
  rw [install_voter_self]
  refine ⟨⟨hst.term, rfl, ?_, ?_⟩, ?_, rfl, ?_⟩
  · dsimp only
    rw [List.drop_append_of_le_length (Nat.le_of_eq hlen.symm), List.drop_of_length_le
      (Nat.le_of_eq hlen), List.nil_append, hlogs, ← hst.logs, List.drop_drop, hst.snap]
    congr 1
    omega
  · dsimp only
    rw [List.take_append_of_le_length (Nat.le_of_eq hlen.symm), List.take_take, Nat.min_self]
    exact hlast.symm
  · exact hdur.trans (makeRaftState_ballot hsaved).1.symm
  · show saved.snapshotLastIncludedIndex = args.lastIncludedIndex
    omega

omit hst hsnap in
theorem install_tracks {L : Fin n} (hL : a₁.leader args.term = some L) (hne : L ≠ i)
    (hterm : rf₁.currentTerm = args.term) (htr : Tracks a₁ i rf₁)
    (hv : VoterStep RaftLogEntry.term a₁ (a₁.install i args.term args.lastIncludedIndex) i)
    (p : Persister n C) (logs : List (RaftLogEntry C)) (msg : ApplyMsg C)
    (hcommand : msg.commandValid = false ∧ msg.commandIndex = 0)
    (hindex : msg.snapshotIndex = args.lastIncludedIndex) :
    Tracks (a₁.install i args.term args.lastIncludedIndex) i { rf₁ with
      snapshotMsg := msg
      persister := p
      logs := logs
      snapshotLastIncludedIndex := args.lastIncludedIndex
      snapshotLastIncludedTerm := args.lastIncludedTerm
      commitIndex := max rf₁.commitIndex args.lastIncludedIndex
      lastApplied := max rf₁.lastApplied args.lastIncludedIndex } := by
  have hk : (a₁.install i args.term args.lastIncludedIndex).Known i args.lastIncludedIndex := by
    have := hv.sound.known_snap (v := i)
    rwa [install_voter_self] at this
  refine ⟨(hv.known _ htr.commit).max hk, (hv.known _ htr.applied).max hk, Nat.le_max_right _ _,
    ⟨fun hcmd => ?_, ?_⟩, htr.leaderTerm, fun hl => ?_, fun hT => ?_⟩
  · rw [hcommand.1] at hcmd
    cases hcmd
  · rw [hcommand.2, hindex, Nat.zero_max]
    exact hk
  · refine (htr.verified hl).imp (hv.known _) fun hf => hf.evolve hv.evolves ?_
    have hlen := hs.covered_le_length hled hcov
    rw [hterm] at hf
    exact install_log_agree hlen hf.1
  · have hT : a₁.leader rf₁.currentTerm = some i := hT
    rw [hterm, hL] at hT
    exact absurd (Option.some.inj hT) hne

end Install

/-- The follower's side of `InstallSnapshot`. -/
theorem Rel.installSnapshot (h : Rel w a) (hs : a.Sound RaftLogEntry.term) {k : Nat} {c : Call n C}
    {args : InstallSnapshotArg n} (hk : w.calls[k]? = some c)
    (hargs : c.args = .installSnapshot args) (hremote : c.dst ≠ c.src) {rf' : Raft n C}
    {reply : InstallSnapshotReply}
    (hins : (w.nodes c.dst).raft.installSnapshot args = some (rf', reply)) :
    ∃ a' : Ghost n C, a'.Sound RaftLogEntry.term ∧ Succeeds a a' ∧
      Rel ((w.setRaft c.dst rf').advance k c (.handled (.installSnapshot reply))) a' := by
  have hn := h.nodes c.dst
  have hcall := h.calls c (List.mem_of_getElem? hk)
  have hc := (callRel_snapshot hargs).mp hcall
  have hanswer : ∀ {a' : Ghost n C}, Evolves a a' →
      CallRel a' { c with progress := .handled (.installSnapshot reply) } := by
    intro a' ev
    have hc' := (callRel_snapshot hargs).mp (hcall.evolve hs ev)
    apply (callRel_snapshot ?_).mpr
    case _ : c.args = .installSnapshot args => exact hargs
    exact ⟨hc'.leader, hc'.covered, hc'.lastTerm⟩
  rcases installSnapshot_cases hins with
    ⟨_, rfl, rfl⟩ | ⟨hle, _, _, rfl⟩ | ⟨hle, _, hsnap, saved, hsaved, rfl⟩
  · -- a stale request
    exact ⟨a, hs, .refl a, h.answer hs (.refl hs) hn.stores hn.tracks (hanswer (.refl a))⟩
  · -- an old snapshot, or one that is still to be applied
    have hrf : SameLog (w.nodes c.dst).raft _ := (SameLog.acceptLeader hle).persist
    have hv := hrf.voterStep hs hn.stores
    refine ⟨_, hv.sound, .ofVoter hv, h.answer hs hv (hrf.stores hn.stores) ?_ (hanswer hv.evolves)⟩
    refine hrf.tracks hs hn.stores hn.tracks hv ?_
    rw [setTerm_voter_self]
  · have hterm := acceptLeader_term _ hle
    have hrf : SameLog (w.nodes c.dst).raft _ := .acceptLeader hle
    have hcont := h.contiguous hs c.dst
    rw [← hrf.logs, ← hrf.snap] at hcont
    obtain ⟨a₁, hacc⟩ := exists_accepted hs hn.stores hn.tracks hle (.inl rfl)
    have hs₁ := hacc.step.sound
    have hcall₁ := (callRel_snapshot hargs).mp (hcall.evolve hs hacc.step.evolves)
    have hled₁ : a₁.leader args.term ≠ none := by
      rw [hcall₁.leader]
      exact Option.some_ne_none _
    have hv₂ := VoterStep.install hs₁ hcall₁.leader (Ne.symm hremote) hacc.durable
      (hacc.holds.term.trans hterm) (by rw [hacc.holds.snap]; exact hsnap) hcall₁.covered
    have hv := hacc.step.trans hv₂
    refine ⟨_, hv.sound, .ofVoter hv, h.answer hs hv ?_ ?_ (hanswer hv.evolves)⟩
    · exact install_stores hs₁ hacc.holds hled₁ hcall₁.covered hsnap
        (hacc.durable.trans hterm.symm) hcall₁.lastTerm hsaved hcont _ _ _
    · exact install_tracks hs₁ hled₁ hcall₁.covered hcall₁.leader (Ne.symm hremote)
        hterm hacc.tracks hv₂ _ _ _ ⟨rfl, rfl⟩ rfl

/-! ### Snapshots of the service -/

section Snapshot
variable {rf : Raft n C} {index : Nat} {saved : RaftState n C}
variable (hst : Holds (a.voter i) rf) (hlen : index ≤ (a.voter i).log.length)
variable (hindex : rf.snapshotLastIncludedIndex ≤ index)
variable (hsaved : makeRaftState rf (index + 1) = some saved)
variable (hcont : Contiguous rf.snapshotLastIncludedIndex rf.logs)
include hst hlen hindex hsaved hcont

/-- The term `makeRaftState` finds for the cut is the log's. -/
theorem makeRaftState_snapTerm : lastTerm RaftLogEntry.term ((a.voter i).log.take index) =
    saved.snapshotLastIncludedTerm := by
  have hsnap := hst.snap
  obtain ⟨-, -, ⟨hkept, heq⟩ | ⟨hlt, e, he, heq⟩⟩ := makeRaftState_log hsaved hcont
  · -- nothing is cut: the snapshot was there already
    have hsame : index = (a.voter i).snap := by
      rcases hkept with hnil | hle
      · rw [← hst.logs, List.drop_eq_nil_iff] at hnil
        omega
      · omega
    rw [heq, hsame]
    exact hst.snapTerm
  · obtain ⟨e', he', hterm⟩ := lastTerm_take (by omega : 0 < index) hlen
    have hlogs : rf.logs.length = (a.voter i).log.length - (a.voter i).snap := by
      rw [← hst.logs, List.length_drop]
    rw [Nat.min_eq_left (by omega), ← hst.logs, List.getElem?_drop,
      show (a.voter i).snap + (index - rf.snapshotLastIncludedIndex - 1) = index - 1 by omega] at he
    rw [hterm, heq]
    exact congrArg RaftLogEntry.term (Option.some.inj (he'.symm.trans he))

theorem trim_stores (hdur : (a.voter i).durable = rf.currentTerm) (data : Bytes)
    (commit applied : Nat) :
    Stores ((a.trim i index).voter i) { rf with
      persister := { raftstate := some saved, snapshot := data }
      logs := saved.logs
      snapshotLastIncludedIndex := max saved.snapshotLastIncludedIndex index
      snapshotLastIncludedTerm := saved.snapshotLastIncludedTerm
      commitIndex := commit
      lastApplied := applied } := by
  have hterm := makeRaftState_snapTerm hst hlen hindex hsaved hcont
  obtain ⟨hlogs, hsnap, -⟩ := makeRaftState_log hsaved hcont
  have hmax : max rf.snapshotLastIncludedIndex index = index := Nat.max_eq_right hindex
  rw [trim_voter_self]
  refine ⟨⟨hst.term, ?_, ?_, hterm⟩, ?_, rfl, ?_⟩
  · show index = max saved.snapshotLastIncludedIndex index
    rw [hsnap, hmax, Nat.max_self]
  · show (a.voter i).log.drop index = saved.logs
    rw [hlogs, ← hst.logs, List.drop_drop, hst.snap, Nat.add_sub_cancel' hindex]
  · exact hdur.trans (makeRaftState_ballot hsaved).1.symm
  · show saved.snapshotLastIncludedIndex = max saved.snapshotLastIncludedIndex index
    rw [hsnap, hmax, Nat.max_self]

end Snapshot

/-- The service compacts what it was delivered. -/
theorem Rel.snapshot (h : Rel w a) (hs : a.Sound RaftLogEntry.term) {index : Nat} {data : Bytes}
    (hindex : index ≤ (w.nodes i).delivered) {rf' : Raft n C}
    (hsnap : (w.nodes i).raft.snapshot index data = some rf') :
    ∃ a' : Ghost n C, a'.Sound RaftLogEntry.term ∧ Succeeds a a' ∧ Rel (w.setRaft i rf') a' := by
  have hn := h.nodes i
  unfold Raft.snapshot at hsnap
  split at hsnap
  · cases hsnap
    exact ⟨a, hs, .refl a, h.stepRaft hs (.refl hs) hn.stores hn.tracks⟩
  · rename_i hold
    simp only [Option.bind_eq_bind, Option.bind_eq_some_iff, Option.pure_def,
      Option.some.injEq] at hsnap
    obtain ⟨saved, hsaved, rfl⟩ := hsnap
    have hge : (w.nodes i).raft.snapshotLastIncludedIndex ≤ index := Nat.le_of_not_lt hold
    -- the state is saved, and the log cut
    have hrf : SameLog (w.nodes i).raft (w.nodes i).raft.persist :=
      (SameLog.refl hn.tracks.leaderTerm).persist
    have hv₁ := hrf.voterStep hs hn.stores
    have hst₁ := hrf.stores hn.stores
    have htr₁ := hrf.tracks hs hn.stores hn.tracks hv₁ (by rw [setTerm_voter_self])
    generalize a.setTerm i (w.nodes i).raft.persist.savedTerm
      (w.nodes i).raft.persist.currentTerm = a₁ at hv₁ hst₁ htr₁
    have hholds : Holds (a₁.voter i) (w.nodes i).raft :=
      ⟨hst₁.term, hst₁.snap, hst₁.logs, hst₁.snapTerm⟩
    have hk : a₁.Known i index := hv₁.known _ (hn.delivered.mono hindex)
    have hv₂ := VoterStep.trim hv₁.sound (by rw [hst₁.snap]; exact hge)
      (hst₁.durable.trans hst₁.term.symm) hk
    refine ⟨_, hv₂.sound, .ofVoter (hv₁.trans hv₂), h.stepRaft hs (hv₁.trans hv₂) ?_ ?_⟩
    · exact trim_stores hholds hk.le_length hge hsaved (h.contiguous hs i) hst₁.durable _ _ _
    · have htr₂ := (SameLog.refl htr₁.leaderTerm).tracks hv₁.sound hst₁ htr₁ hv₂
        (by rw [trim_voter_self])
      have hk₂ := hv₂.known _ hk
      refine ⟨htr₂.commit.max hk₂, htr₂.applied.max hk₂, ?_, htr₂.snapshotMsg, htr₂.leaderTerm,
        htr₂.verified, htr₂.matched⟩
      obtain ⟨-, hmax, -⟩ := makeRaftState_log hsaved (h.contiguous hs i)
      dsimp only
      omega

/-! ### Applying -/

/-- An entry below the commit index is chosen. -/
theorem Rel.deliverable (h : Rel w a) (hs : a.Sound RaftLogEntry.term) {p : Nat}
    {e : RaftLogEntry C} (he : (w.nodes i).raft.logs[p]? = some e)
    (hp : (w.nodes i).raft.snapshotLastIncludedIndex + p < (w.nodes i).raft.commitIndex) :
    Deliverable a i (commandMsg e) := by
  have hk := (h.nodes i).tracks.commit
  rw [h.logs_getElem?] at he
  have hidx := h.log_indexed hs he
  refine ⟨fun _ => ?_, ?_⟩
  · rcases hk with hz | ⟨T, j, hc, _, hj, hagree⟩
    · omega
    · refine ⟨T, j, e, hc, ?_, rfl, ?_, ?_, rfl⟩
      · show e.index ≤ j
        omega
      · rw [hidx, Nat.add_sub_cancel, ← hagree _ (Nat.zero_le _) hp]
        exact he
      · omega
  · refine hk.mono ?_
    show max e.index 0 ≤ _
    omega

theorem Rel.applyTake (h : Rel w a) (hs : a.Sound RaftLogEntry.term) {rf' : Raft n C}
    {msgs : List (ApplyMsg C)} {last : Option Nat}
    (happ : (w.nodes i).raft.applyLog = some (rf', msgs, last)) :
    Rel (w.setNode i { w.nodes i with raft := rf', applying := some (msgs, last) }) a := by
  have hn := h.nodes i
  simp only [applyLog, Option.map_eq_some_iff, Prod.mk.injEq] at happ
  obtain ⟨logs, hlogs, rfl, rfl, rfl⟩ := happ
  have hdel : ∀ e ∈ logs, Deliverable a i (commandMsg e) := by
    intro e he
    obtain ⟨p, hp, _, hlt⟩ := applyLogs_mem hlogs he
    exact h.deliverable hs hp hlt
  have htr := hn.tracks
  have hst := hn.stores
  refine h.setNode ⟨⟨⟨hst.term, hst.snap, hst.logs, hst.snapTerm⟩, hst.durable, hst.savedLogs,
    hst.savedSnap⟩, ⟨htr.commit, htr.applied, htr.snap_le, deliverable_empty, htr.leaderTerm,
    htr.verified, htr.matched⟩, hn.delivered, fun msgs last hap => ?_⟩
  cases hap
  refine ⟨fun m hm => ?_, fun k hk => ?_⟩
  · have hcommand : m ∈ (logs.map commandMsg).filter (fun m =>
        (w.nodes i).raft.snapshotMsg.snapshotIndex == 0 ||
          decide ((w.nodes i).raft.snapshotMsg.snapshotIndex < m.commandIndex)) →
        Deliverable a i m := by
      intro hm
      obtain ⟨e, he, rfl⟩ := List.mem_map.mp (List.mem_filter.mp hm).1
      exact hdel e he
    unfold applyMsgs queue at hm
    dsimp only at hm
    split at hm
    · rcases List.mem_cons.mp hm with rfl | hm
      · exact htr.snapshotMsg
      · exact hcommand hm
    · exact hcommand hm
  · obtain ⟨e, he, rfl⟩ := Option.map_eq_some_iff.mp hk
    refine (hdel e (List.mem_of_getLast? he)).2.mono ?_
    exact Nat.le_max_left _ _

theorem Rel.applySend (h : Rel w a) {msg : ApplyMsg C} {rest : List (ApplyMsg C)}
    {last : Option Nat} (happ : (w.nodes i).applying = some (msg :: rest, last)) :
    Rel (w.applySend i msg rest last) a := by
  have hn := h.nodes i
  obtain ⟨hmsgs, hlast⟩ := hn.applying _ _ happ
  have hmsg := hmsgs msg List.mem_cons_self
  have hnode : NodeRel a i { w.nodes i with
      applying := some (rest, last)
      delivered := max (w.nodes i).delivered (max msg.commandIndex msg.snapshotIndex) } := by
    refine ⟨hn.stores, hn.tracks, hn.delivered.max hmsg.2, fun msgs l hap => ?_⟩
    cases hap
    exact ⟨fun m hm => hmsgs m (List.mem_cons_of_mem _ hm), hlast⟩
  refine (h.setNode hnode).observe fun e he => ?_
  rw [List.mem_singleton.mp he]
  exact hmsg.1

theorem Rel.applyDone (h : Rel w a) {last : Option Nat}
    (happ : (w.nodes i).applying = some ([], last)) : Rel (w.applyDone i last) a := by
  have hn := h.nodes i
  obtain ⟨_, hlast⟩ := hn.applying _ _ happ
  have hst := hn.stores
  have htr := hn.tracks
  cases last with
  | none => exact h.setNode ⟨hst, htr, hn.delivered, nofun⟩
  | some k =>
    exact h.setNode ⟨⟨⟨hst.term, hst.snap, hst.logs, hst.snapTerm⟩, hst.durable, hst.savedLogs,
      hst.savedSnap⟩, ⟨htr.commit, htr.applied.max (hlast k rfl),
        Nat.le_trans htr.snap_le (Nat.le_max_left _ _), htr.snapshotMsg, htr.leaderTerm,
        htr.verified, htr.matched⟩, hn.delivered, nofun⟩

end RaftLabs.Raft
