import RaftLabs.Raft.Refinement

/-! Every step of the cluster is a step of the replicated log.

Most locked sections change one server and at most raise its term. The others are
an accepted `AppendEntries` (the follower confirms the leader's entries or takes
them over), an installed snapshot, a snapshot taken, a new entry, an election won
and a restart. -/
namespace RaftLabs.Raft
open Lib World ReplicatedLog
variable {n : Nat} {C : Type} {w w' : World n C} {a a' : Ghost n C} {i : Fin n}

/-! ### Rules -/

/-- The goroutines' own variables survive a step that forgets nothing. -/
theorem NodeRel.step {node node' : Node n C} (h : NodeRel a i node)
    (hs : a.Sound RaftLogEntry.term) (ev : Evolves a a')
    (hknown : ∀ k, a.Known i k → a'.Known i k) (hstores : Stores (a'.voter i) node'.raft)
    (htracks : Tracks a' i node'.raft) (hdel : node'.delivered = node.delivered)
    (hap : node'.applying = node.applying) : NodeRel a' i node' := by
  refine ⟨hstores, htracks, by rw [hdel]; exact hknown _ h.delivered, fun msgs last heq => ?_⟩
  rw [hap] at heq
  obtain ⟨hmsgs, hlast⟩ := h.applying msgs last heq
  exact ⟨fun m hm => (hmsgs m hm).evolve hs ev hknown, fun i hi => hknown i (hlast i hi)⟩

/-- The replicated log takes a step in which only voter `i` changes, and so do the
servers. -/
theorem Rel.evolve (h : Rel w a) (hs : a.Sound RaftLogEntry.term) (ev : Evolves a a')
    (hvoters : ∀ v, v ≠ i → a'.voter v = a.voter v)
    (hled : ∀ v, v ≠ i → ∀ T, a'.leader T = some v → a.leader T = some v)
    (hindexed : ∀ T, Contiguous 0 (a'.leaderLog T)) (hcalls : w'.calls = w.calls)
    (hnodes : ∀ v, v ≠ i → w'.nodes v = w.nodes v) (hnode : NodeRel a' i (w'.nodes i))
    (hleaders : ∀ T v, a'.leader T = some v → Event.lead v T ∈ w'.trace)
    (hevents : ∀ e ∈ w'.trace, e ∈ w.trace ∨ EventRel a' e) : Rel w' a' where
  leaders := hleaders
  indexed := hindexed
  nodes v := by
    by_cases hvi : v = i
    · subst hvi
      exact hnode
    · rw [hnodes v hvi]
      exact (h.nodes v).evolve hs ev (hvoters v hvi) (hled v hvi)
  calls c hc := (h.calls c (hcalls ▸ hc)).evolve hs ev
  events e he := (hevents e he).elim (fun hold => (h.events e hold).evolve hs ev) id

/-- One server moves with its voter. -/
theorem Rel.stepNode (h : Rel w a) (hs : a.Sound RaftLogEntry.term) {node : Node n C}
    (hv : VoterStep RaftLogEntry.term a a' i) (hstores : Stores (a'.voter i) node.raft)
    (htracks : Tracks a' i node.raft) (hdel : node.delivered = (w.nodes i).delivered)
    (hap : node.applying = (w.nodes i).applying) : Rel (w.setNode i node) a' := by
  refine h.evolve hs hv.evolves hv.others (fun v _ T hT => hv.leader ▸ hT)
    (fun T => by rw [hv.leaderLog]; exact h.indexed T) rfl (fun v hv => setNode_ne w node hv) ?_
    (fun T v hT => h.leaders T v (hv.leader ▸ hT)) fun e he => .inl he
  rw [setNode_self]
  exact (h.nodes i).step hs hv.evolves hv.known hstores htracks hdel hap

theorem Rel.stepRaft (h : Rel w a) (hs : a.Sound RaftLogEntry.term) {rf' : Raft n C}
    (hv : VoterStep RaftLogEntry.term a a' i) (hstores : Stores (a'.voter i) rf')
    (htracks : Tracks a' i rf') : Rel (w.setRaft i rf') a' :=
  h.stepNode hs hv hstores htracks rfl rfl

/-- A server moves and the replicated log does not. -/
theorem Rel.setNode (h : Rel w a) {node : Node n C} (hn : NodeRel a i node) :
    Rel (w.setNode i node) a where
  leaders := h.leaders
  indexed := h.indexed
  nodes := forall_setNode (P := NodeRel a) h.nodes hn
  calls := h.calls
  events := h.events

theorem Rel.send (h : Rel w a) {calls : List (Call n C)} (hcalls : ∀ c ∈ calls, CallRel a c) :
    Rel (w.send calls) a where
  leaders := h.leaders
  indexed := h.indexed
  nodes := h.nodes
  calls c hc := (List.mem_append.mp hc).elim (h.calls c) (hcalls c)
  events := h.events

theorem Rel.observe (h : Rel w a) {events : List (Event n C)}
    (hevents : ∀ e ∈ events, EventRel a e) : Rel (w.observe events) a where
  leaders T v hT := List.mem_append_left _ (h.leaders T v hT)
  indexed := h.indexed
  nodes := h.nodes
  calls := h.calls
  events e he := (List.mem_append.mp he).elim (h.events e) (hevents e)

theorem Rel.advance (h : Rel w a) {k : Nat} {c : Call n C} {p : Progress}
    (hcall : CallRel a { c with progress := p }) : Rel (w.advance k c p) a where
  leaders := h.leaders
  indexed := h.indexed
  nodes := h.nodes
  calls c' hm := by
    rcases List.mem_or_eq_of_mem_set hm with hold | rfl
    · exact h.calls c' hold
    · exact hcall
  events := h.events

theorem Rel.panic (h : Rel w a) (i : Fin n) : Rel (w.panic i) a :=
  have hn := h.nodes i
  h.setNode ⟨hn.stores, hn.tracks, hn.delivered, hn.applying⟩

/-- A call moves on without a new reply. -/
theorem CallRel.progress {c : Call n C} (h : CallRel a c) {p : Progress}
    (hp : ∀ r, p.reply? = some r → c.progress.reply? = some r) :
    CallRel a { c with progress := p } := by
  unfold CallRel at h ⊢
  dsimp only
  split at h
  · exact ⟨h.reached, h.log, fun reply hr => h.granted reply (hp _ hr)⟩
  · exact ⟨h.leader, h.entries, fun reply hr => h.success reply (hp _ hr)⟩
  · exact ⟨h.leader, h.covered, h.lastTerm⟩

/-! ### Steps that leave the log alone -/

/-- At most the term, the vote, the leader term and what goes with them move; the state
is saved as a whole or not at all. -/
structure SameLog (rf rf' : Raft n C) : Prop where
  logs : rf'.logs = rf.logs
  snap : rf'.snapshotLastIncludedIndex = rf.snapshotLastIncludedIndex
  snapTerm : rf'.snapshotLastIncludedTerm = rf.snapshotLastIncludedTerm
  commit : rf'.commitIndex = rf.commitIndex
  applied : rf'.lastApplied = rf.lastApplied
  snapshotMsg : rf'.snapshotMsg = rf.snapshotMsg
  matchIndex : rf'.matchIndex = rf.matchIndex
  saved : rf'.persister.raftstate = rf.persister.raftstate ∨
    rf'.persister.raftstate = some rf'.raftState
  leaderTerm : ∀ t, rf'.leaderTerm = some t → t ≤ rf'.currentTerm
  verified : rf'.leaderTerm = some rf'.currentTerm → rf'.lastNewEntryIndex = rf.commitIndex ∨
    (rf.leaderTerm = some rf.currentTerm ∧ rf'.currentTerm = rf.currentTerm ∧
      rf'.lastNewEntryIndex = rf.lastNewEntryIndex)
  term : rf.currentTerm ≤ rf'.currentTerm

namespace SameLog
variable {rf rf' : Raft n C}

theorem persist (h : SameLog rf rf') : SameLog rf rf'.persist :=
  ⟨h.logs, h.snap, h.snapTerm, h.commit, h.applied, h.snapshotMsg, h.matchIndex, .inr rfl,
    h.leaderTerm, h.verified, h.term⟩

theorem savedTerm (h : SameLog rf rf') :
    rf'.savedTerm = rf.savedTerm ∨ rf'.savedTerm = rf'.currentTerm := by
  unfold Raft.savedTerm
  rcases h.saved with heq | heq <;> rw [heq]
  · exact .inl rfl
  · exact .inr rfl

theorem voterStep (h : SameLog rf rf') (hs : a.Sound RaftLogEntry.term)
    (hst : Stores (a.voter i) rf) :
    VoterStep RaftLogEntry.term a (a.setTerm i rf'.savedTerm rf'.currentTerm) i := by
  have hle := (hs.voters i).durable_le
  have hterm := h.term
  have h1 := hst.term
  have h2 := hst.durable
  refine .setTerm hs ?_ ?_ ?_ <;> rcases h.savedTerm with heq | heq <;> omega

theorem stores (h : SameLog rf rf') (hst : Stores (a.voter i) rf) :
    Stores ((a.setTerm i rf'.savedTerm rf'.currentTerm).voter i) rf' := by
  rw [setTerm_voter_self]
  refine ⟨⟨rfl, hst.snap.trans h.snap.symm, hst.logs.trans h.logs.symm,
    hst.snapTerm.trans h.snapTerm.symm⟩, rfl, ?_, ?_⟩
  · unfold Raft.savedLogs
    rcases h.saved with heq | heq <;> rw [heq]
    · rw [h.logs]
      exact hst.savedLogs
    · rfl
  · unfold Raft.savedSnapshotIndex
    rcases h.saved with heq | heq <;> rw [heq]
    · rw [h.snap]
      exact hst.savedSnap
    · rfl

theorem tracks (h : SameLog rf rf') (hs : a.Sound RaftLogEntry.term)
    (hst : Stores (a.voter i) rf) (htr : Tracks a i rf)
    (hv : VoterStep RaftLogEntry.term a a' i) (hlog : (a'.voter i).log = (a.voter i).log) :
    Tracks a' i rf' := by
  refine ⟨by rw [h.commit]; exact hv.known _ htr.commit,
    by rw [h.applied]; exact hv.known _ htr.applied,
    by rw [h.snap, h.applied]; exact htr.snap_le,
    by rw [h.snapshotMsg]; exact htr.snapshotMsg.evolve hs hv.evolves hv.known, h.leaderTerm,
    fun hl => ?_, fun hT j => ?_⟩
  · rcases h.verified hl with heq | ⟨hl₀, hT, heq⟩
    · rw [heq]
      exact .inl (hv.known _ htr.commit)
    · rw [heq, hT]
      refine (htr.verified hl₀).imp (hv.known _) fun hf => hf.evolve hv.evolves ?_
      rw [hlog]
      exact .refl _ _ _
  · -- a leader does not move to another term of its own
    have hled : a.leader rf'.currentTerm = some i := hv.leader ▸ hT
    have hle := ((hs.voters i).leading _ hled).1
    have hdur := (hs.voters i).durable_le
    rw [hst.term] at hdur
    have hterm : rf'.currentTerm = rf.currentTerm := by
      have := h.term
      omega
    rw [hterm] at hled ⊢
    rw [h.matchIndex]
    exact (htr.matched hled j).imp (fun hle => Nat.le_trans hle (hv.evolves.acked _ _))
      fun hcov => hcov.evolve hs hv.evolves

theorem refl (hl : ∀ t, rf.leaderTerm = some t → t ≤ rf.currentTerm) : SameLog rf rf :=
  ⟨rfl, rfl, rfl, rfl, rfl, rfl, rfl, .inl rfl, hl, fun h => .inr ⟨h, rfl, rfl⟩, Nat.le_refl _⟩

theorem stepDown {term : Nat} (h : rf.currentTerm < term) : SameLog rf (rf.stepDown term) :=
  ⟨rfl, rfl, rfl, rfl, rfl, rfl, rfl, .inl rfl, fun _ ht => Nat.le_of_eq (Option.some.inj ht).symm,
    fun _ => .inl rfl, Nat.le_of_lt h⟩

theorem acceptLeader {term : Nat} (h : rf.currentTerm ≤ term) :
    SameLog rf (acceptLeader rf term).1 := by
  have hterm := acceptLeader_term rf h
  have hlead := acceptLeader_leaderTerm rf term
  have hlast := acceptLeader_lastNewEntryIndex rf h
  rw [acceptLeader_frame rf term]
  refine ⟨rfl, rfl, rfl, rfl, rfl, rfl, rfl, .inl rfl, fun t ht => ?_, fun _ => ?_, ?_⟩
  · dsimp only at ht ⊢
    rw [hlead] at ht
    cases ht
    exact Nat.le_of_eq hterm.symm
  · dsimp only
    refine hlast.imp_right fun ⟨heq, hl, hsame⟩ => ⟨by rw [heq]; exact hl, ?_, hsame⟩
    rw [hterm, heq]
  · dsimp only
    omega

/-- A new candidate's term is not the one its leader term names. -/
theorem prepareElection (hl : ∀ t, rf.leaderTerm = some t → t ≤ rf.currentTerm) :
    SameLog rf (prepareElection rf).1 := by
  refine ⟨rfl, rfl, rfl, rfl, rfl, rfl, rfl, .inr rfl, fun t ht => ?_, fun hlead => ?_, Nat.le_succ _⟩
  · exact Nat.le_succ_of_le (hl t ht)
  · exact absurd (hl _ hlead) (Nat.not_succ_le_self _)

theorem requestVote (hl : ∀ t, rf.leaderTerm = some t → t ≤ rf.currentTerm)
    (args : RequestVoteArgs n) : SameLog rf (rf.requestVote args).1 := by
  unfold Raft.requestVote
  split
  · exact .refl hl
  · have hsame : SameLog rf
        (if rf.currentTerm < args.term then (rf.stepDown args.term).persist else rf) := by
      split
      · exact (stepDown ‹_›).persist
      · exact .refl hl
    dsimp only
    generalize (if rf.currentTerm < args.term then (rf.stepDown args.term).persist else rf) = rf₁
      at hsame ⊢
    split
    · split
      · exact hsame
      · split
        · exact hsame
        · exact ⟨hsame.logs, hsame.snap, hsame.snapTerm, hsame.commit, hsame.applied,
            hsame.snapshotMsg, hsame.matchIndex, .inr rfl, hsame.leaderTerm, hsame.verified,
            hsame.term⟩
    · exact hsame

end SameLog

/-- A server raises its term. -/
theorem Rel.sameLog (h : Rel w a) (hs : a.Sound RaftLogEntry.term) (node : Node n C)
    (hrf : SameLog (w.nodes i).raft node.raft) (hdel : node.delivered = (w.nodes i).delivered)
    (hap : node.applying = (w.nodes i).applying) :
    Rel (w.setNode i node) (a.setTerm i node.raft.savedTerm node.raft.currentTerm) := by
  have hn := h.nodes i
  have hv := hrf.voterStep hs hn.stores
  refine h.stepNode hs hv (hrf.stores hn.stores) ?_ hdel hap
  refine hrf.tracks hs hn.stores hn.tracks hv ?_
  rw [setTerm_voter_self]

theorem Rel.sameLogRaft (h : Rel w a) (hs : a.Sound RaftLogEntry.term) {rf' : Raft n C}
    (hrf : SameLog (w.nodes i).raft rf') :
    Rel (w.setRaft i rf') (a.setTerm i rf'.savedTerm rf'.currentTerm) :=
  h.sameLog hs { w.nodes i with raft := rf' } hrf rfl rfl

/-! ### Logs and their ends -/

section Ends
variable (hs : a.Sound RaftLogEntry.term) (h : Rel w a)
include hs h

theorem Rel.log_indexed {v : Fin n} {j : Nat} {e : RaftLogEntry C}
    (he : (a.voter v).log[j]? = some e) : e.index = j + 1 := by
  obtain ⟨T, heT, _⟩ := hs.entry_led he
  have := h.indexed T j e heT
  omega

omit hs in
theorem Rel.logs_getElem? {v : Fin n} (p : Nat) :
    (w.nodes v).raft.logs[p]? =
      (a.voter v).log[(w.nodes v).raft.snapshotLastIncludedIndex + p]? := by
  have hst := (h.nodes v).stores
  rw [← hst.logs, List.getElem?_drop, hst.snap]

theorem Rel.contiguous (v : Fin n) :
    Contiguous (w.nodes v).raft.snapshotLastIncludedIndex (w.nodes v).raft.logs := by
  intro p e he
  rw [h.logs_getElem?] at he
  exact h.log_indexed hs he

/-- The end of the log, as a server reports it. -/
theorem Rel.last_log (v : Fin n) :
    (w.nodes v).raft.lastLogTerm = lastTerm RaftLogEntry.term (a.voter v).log ∧
      (w.nodes v).raft.lastLogIndex = (a.voter v).log.length := by
  have hst := (h.nodes v).stores
  have hle := (hs.voters v).snap_le
  unfold lastLogTerm lastLogIndex
  by_cases hnil : (w.nodes v).raft.logs = []
  · have hlen : (a.voter v).log.length ≤ (a.voter v).snap := by
      rw [← hst.logs] at hnil
      exact List.drop_eq_nil_iff.mp hnil
    rw [hnil]
    refine ⟨?_, ?_⟩
    · show (w.nodes v).raft.snapshotLastIncludedTerm = _
      rw [← hst.snapTerm, List.take_of_length_le hlen]
    · show (w.nodes v).raft.snapshotLastIncludedIndex = _
      rw [← hst.snap]
      omega
  · have hlast : (w.nodes v).raft.logs.getLast? = (a.voter v).log.getLast? := by
      rw [← hst.logs, List.getLast?_drop, if_neg]
      intro hlen
      rw [← hst.logs] at hnil
      exact hnil (List.drop_eq_nil_iff.mpr hlen)
    rw [hlast]
    unfold Lib.lastTerm
    cases he : (a.voter v).log.getLast? with
    | none =>
      rw [he, List.getLast?_eq_none_iff] at hlast
      exact absurd hlast hnil
    | some e =>
      refine ⟨rfl, ?_⟩
      rw [List.getLast?_eq_getElem?] at he
      have hidx := h.log_indexed hs he
      have hlt := (List.getElem?_eq_some_iff.mp he).1
      show e.index = _
      omega

end Ends

/-! ### Prefixes -/

theorem lastTerm_take {l : List (RaftLogEntry C)} {k : Nat} (hpos : 0 < k) (hk : k ≤ l.length) :
    ∃ e, l[k - 1]? = some e ∧ lastTerm RaftLogEntry.term (l.take k) = e.term := by
  have he := List.getElem?_eq_getElem (by omega : k - 1 < l.length)
  refine ⟨_, he, lastTerm_eq (j := k - 1) ?_ ?_⟩
  · rw [List.length_take]
    omega
  · rw [List.getElem?_take_of_lt (by omega)]
    exact he

theorem take_eq_of_agree {l l' : List (RaftLogEntry C)} {k : Nat} (h : AgreeOn l l' 0 k) :
    l.take k = l'.take k := by
  refine AgreeOn.eq (fun j hj hjk => ?_) (List.length_take_le k l) (List.length_take_le k l')
  rw [List.getElem?_take_of_lt hjk, List.getElem?_take_of_lt hjk]
  exact h j hj hjk

end RaftLabs.Raft
