import RaftLabs.Lib.CommittedPrefix
import RaftLabs.Raft.Elections
import RaftLabs.Raft.Logs

/-! The cluster as a replicated log.

`Rel w a` says that the world `w` is an implementation of the replicated log `a`:
every server stores its part of the log past its snapshot, in memory and on disk,
its indices are of prefixes known to be committed, and every call carries what its
sender's log held when it was made. -/
namespace RaftLabs.Raft
open Lib World ReplicatedLog
variable {n : Nat} {C : Type}

/-- The replicated log behind a cluster. -/
abbrev Ghost (n : Nat) (C : Type) := ReplicatedLog (Fin n) (RaftLogEntry C)

/-! ### Servers -/

/-- The server holds the voter's log past its snapshot. -/
structure Holds (x : Voter (RaftLogEntry C)) (rf : Raft n C) : Prop where
  term : x.term = rf.currentTerm
  snap : x.snap = rf.snapshotLastIncludedIndex
  logs : x.log.drop x.snap = rf.logs
  snapTerm : lastTerm RaftLogEntry.term (x.log.take x.snap) = rf.snapshotLastIncludedTerm

/-- And it has the same log on disk. -/
structure Stores (x : Voter (RaftLogEntry C)) (rf : Raft n C) : Prop extends Holds x rf where
  durable : x.durable = rf.savedTerm
  savedLogs : rf.savedLogs = rf.logs
  savedSnap : rf.savedSnapshotIndex = rf.snapshotLastIncludedIndex

/-- Indices, roles and votes are free to move. -/
theorem Stores.congr {x : Voter (RaftLogEntry C)} {rf rf' : Raft n C} (h : Stores x rf)
    (hterm : rf'.currentTerm = rf.currentTerm) (hlogs : rf'.logs = rf.logs)
    (hsnap : rf'.snapshotLastIncludedIndex = rf.snapshotLastIncludedIndex)
    (hsnapTerm : rf'.snapshotLastIncludedTerm = rf.snapshotLastIncludedTerm)
    (hp : rf'.persister.raftstate = rf.persister.raftstate) : Stores x rf' where
  term := h.term.trans hterm.symm
  snap := h.snap.trans hsnap.symm
  logs := h.logs.trans hlogs.symm
  snapTerm := h.snapTerm.trans hsnapTerm.symm
  durable := by
    unfold Raft.savedTerm
    rw [hp]
    exact h.durable
  savedLogs := by
    unfold Raft.savedLogs
    rw [hp, hlogs]
    exact h.savedLogs
  savedSnap := by
    unfold Raft.savedSnapshotIndex
    rw [hp, hsnap]
    exact h.savedSnap

/-- A command message names a committed entry. -/
def Chosen (a : Ghost n C) (msg : ApplyMsg C) : Prop :=
  msg.commandValid = true → ∃ T i e, a.Committed T i ∧ msg.commandIndex ≤ i ∧
    e.index = msg.commandIndex ∧ (a.leaderLog T)[e.index - 1]? = some e ∧ 0 < e.index ∧
    msg.command = some e.command

/-- A message the server may send to its service: it is chosen, and the service may
count on everything up to its index. -/
def Deliverable (a : Ghost n C) (v : Fin n) (msg : ApplyMsg C) : Prop :=
  Chosen a msg ∧ a.Known v (max msg.commandIndex msg.snapshotIndex)

/-- The snapshot message of a server with no snapshot to apply. -/
theorem deliverable_empty {a : Ghost n C} {v : Fin n} : Deliverable a v {} :=
  ⟨fun h => absurd h Bool.false_ne_true, .inl rfl⟩

/-- The server's indices: what it takes for committed or applied is known to be
committed, what it has verified is the leader's, and as a leader it counts on nothing
that was not confirmed or committed. -/
structure Tracks (a : Ghost n C) (v : Fin n) (rf : Raft n C) : Prop where
  commit : a.Known v rf.commitIndex
  applied : a.Known v rf.lastApplied
  snap_le : rf.snapshotLastIncludedIndex ≤ rf.lastApplied
  snapshotMsg : Deliverable a v rf.snapshotMsg
  leaderTerm : ∀ t, rf.leaderTerm = some t → t ≤ rf.currentTerm
  verified : rf.leaderTerm = some rf.currentTerm →
    a.Known v rf.lastNewEntryIndex ∨ a.Follows v rf.currentTerm rf.lastNewEntryIndex
  matched : a.leader rf.currentTerm = some v → ∀ j,
    rf.matchIndex j ≤ (a.voter j).acked rf.currentTerm ∨ a.Covered rf.currentTerm (rf.matchIndex j)

/-- A server with its goroutines. -/
structure NodeRel (a : Ghost n C) (v : Fin n) (node : Node n C) : Prop where
  stores : Stores (a.voter v) node.raft
  tracks : Tracks a v node.raft
  delivered : a.Known v node.delivered
  applying : ∀ msgs last, node.applying = some (msgs, last) →
    (∀ m ∈ msgs, Deliverable a v m) ∧ ∀ i, last = some i → a.Known v i

/-! ### Calls and events -/

/-- What a vote means: the voter has reached the term, and what it has confirmed of
earlier terms is not after the end of the candidate's log. -/
def Backs (a : Ghost n C) (u : Fin n) (args : RequestVoteArgs n) : Prop :=
  args.term ≤ (a.voter u).durable ∧ ∀ T i, T < args.term → a.Own T i → a.Choosable T i →
    i ≤ (a.voter u).acked T →
    T < args.lastLogTerm ∨ (T = args.lastLogTerm ∧ i ≤ args.lastLogIndex)

structure VoteCall (a : Ghost n C) (c : Call n C) (args : RequestVoteArgs n) : Prop where
  reached : args.term ≤ (a.voter c.src).durable
  log : a.leader args.term = none → (a.voter c.src).durable = args.term →
    lastTerm RaftLogEntry.term (a.voter c.src).log = args.lastLogTerm ∧
      (a.voter c.src).log.length = args.lastLogIndex
  granted : ∀ reply, c.progress.reply? = some (.requestVote reply) → reply.voteGranted = true →
    Backs a c.dst args

/-- The request is a slice of the log of the term's leader. -/
structure EntriesOf (a : Ghost n C) (args : AppendEntriesArgs n C) : Prop where
  length : args.prevLogIndex + args.entries.length ≤ (a.leaderLog args.term).length
  entries : ∀ j < args.entries.length,
    args.entries[j]? = (a.leaderLog args.term)[args.prevLogIndex + j]?
  prevTerm : args.prevLogTerm =
    lastTerm RaftLogEntry.term ((a.leaderLog args.term).take args.prevLogIndex)
  commit : a.Covered args.term args.leaderCommit

structure EntriesCall (a : Ghost n C) (c : Call n C) (args : AppendEntriesArgs n C) : Prop where
  leader : a.leader args.term = some c.src
  entries : EntriesOf a args
  success : ∀ reply, c.progress.reply? = some (.appendEntries reply) → reply.success = true →
    args.prevLogIndex + args.entries.length ≤ (a.voter c.dst).acked args.term ∨
      a.Covered args.term (args.prevLogIndex + args.entries.length)

structure SnapshotCall (a : Ghost n C) (c : Call n C) (args : InstallSnapshotArg n) : Prop where
  leader : a.leader args.term = some c.src
  covered : a.Covered args.term args.lastIncludedIndex
  lastTerm : args.lastIncludedTerm =
    lastTerm RaftLogEntry.term ((a.leaderLog args.term).take args.lastIncludedIndex)

def CallRel (a : Ghost n C) (c : Call n C) : Prop :=
  match c.args with
  | .requestVote args => VoteCall a c args
  | .appendEntries args => EntriesCall a c args
  | .installSnapshot args => SnapshotCall a c args

theorem callRel_vote {a : Ghost n C} {c : Call n C} {args : RequestVoteArgs n}
    (hargs : c.args = .requestVote args) : CallRel a c ↔ VoteCall a c args := by
  unfold CallRel
  rw [hargs]

theorem callRel_entries {a : Ghost n C} {c : Call n C} {args : AppendEntriesArgs n C}
    (hargs : c.args = .appendEntries args) : CallRel a c ↔ EntriesCall a c args := by
  unfold CallRel
  rw [hargs]

theorem callRel_snapshot {a : Ghost n C} {c : Call n C} {args : InstallSnapshotArg n}
    (hargs : c.args = .installSnapshot args) : CallRel a c ↔ SnapshotCall a c args := by
  unfold CallRel
  rw [hargs]

def EventRel (a : Ghost n C) : Event n C → Prop
  | .vote _ _ _ => True
  | .lead v T => a.leader T = some v
  | .commit _ T index logs => ∀ e ∈ logs, e.index ≤ index → ∃ Tc i, a.Committed Tc i ∧ Tc ≤ T ∧
      e.index ≤ i ∧ 0 < e.index ∧ (a.leaderLog Tc)[e.index - 1]? = some e
  | .deliver _ msg => Chosen a msg

/-- The world implements the replicated log. -/
structure Rel (w : World n C) (a : Ghost n C) : Prop where
  leaders : ∀ T v, a.leader T = some v → Event.lead v T ∈ w.trace
  indexed : ∀ T, Contiguous 0 (a.leaderLog T)
  nodes : ∀ v, NodeRel a v (w.nodes v)
  calls : ∀ c ∈ w.calls, CallRel a c
  events : ∀ ev ∈ w.trace, EventRel a ev

/-! ### Facts that stay -/

section Evolve
variable {a a' : Ghost n C}

theorem lastTerm_take_evolve (ev : Evolves a a') {T k : Nat} (hk : k ≤ (a.leaderLog T).length) :
    lastTerm RaftLogEntry.term ((a'.leaderLog T).take k) =
      lastTerm RaftLogEntry.term ((a.leaderLog T).take k) := by
  have hagree : AgreeOn ((a'.leaderLog T).take k) ((a.leaderLog T).take k) 0 k := by
    intro j hj hjk
    rw [List.getElem?_take_of_lt hjk, List.getElem?_take_of_lt hjk]
    exact ev.leaderLog T j hj (by omega)
  rw [hagree.eq (List.length_take_le _ _) (List.length_take_le _ _)]

variable (hs : a.Sound RaftLogEntry.term) (ev : Evolves a a')
include hs ev

theorem Chosen.evolve {msg : ApplyMsg C} (h : Chosen a msg) : Chosen a' msg := by
  intro hv
  obtain ⟨T, i, e, hc, hi, hidx, he, hpos, hcmd⟩ := h hv
  exact ⟨T, i, e, ev.committed hs hc, hi, hidx, ev.entry he, hpos, hcmd⟩

theorem Deliverable.evolve {v : Fin n} {msg : ApplyMsg C} (h : Deliverable a v msg)
    (hknown : ∀ k, a.Known v k → a'.Known v k) : Deliverable a' v msg :=
  ⟨h.1.evolve hs ev, hknown _ h.2⟩

theorem EventRel.evolve {e : Event n C} (h : EventRel a e) : EventRel a' e := by
  cases e with
  | vote => trivial
  | lead v T => exact ev.leader T v h
  | commit v T index logs =>
    intro e he hle
    obtain ⟨Tc, i, hc, hTc, hi, hpos, hent⟩ := h e he hle
    exact ⟨Tc, i, ev.committed hs hc, hTc, hi, hpos, ev.entry hent⟩
  | deliver v msg => exact Chosen.evolve hs ev h

theorem Backs.evolve {u : Fin n} {args : RequestVoteArgs n} (h : Backs a u args) :
    Backs a' u args := by
  obtain ⟨hreached, hback⟩ := h
  refine ⟨Nat.le_trans hreached (ev.durable u), fun T i hT hown hch hack => ?_⟩
  rw [ev.frozen u T (by omega)] at hack
  have hown₀ := ev.own_of_le hs hown (Nat.le_trans hack ((hs.voters u).acked_le T))
  exact hback T i hT hown₀ (ev.choosable hch) hack

/-- A candidate's log does not change while its term has no leader. -/
theorem VoteCall.evolve {c : Call n C} {args : RequestVoteArgs n} (h : VoteCall a c args) :
    VoteCall a' c args := by
  refine ⟨Nat.le_trans h.reached (ev.durable _), fun hnone hdur => ?_, fun reply hr hg =>
    (h.granted reply hr hg).evolve hs ev⟩
  have hreached := h.reached
  have hmono := ev.durable c.src
  have hnone₀ : a.leader args.term = none := by
    by_contra hled
    exact ev.led hled hnone
  have hlog : (a'.voter c.src).log = (a.voter c.src).log := by
    rcases ev.log c.src with hlog | hlt | hled
    · exact hlog
    · omega
    · rw [hdur] at hled
      exact absurd hnone hled
  rw [hlog]
  exact h.log hnone₀ (by omega)

theorem EntriesOf.evolve {args : AppendEntriesArgs n C} (h : EntriesOf a args) :
    EntriesOf a' args where
  length := Nat.le_trans h.length (ev.length_le _)
  entries j hj := by
    have := h.length
    rw [h.entries j hj]
    exact (ev.leaderLog _ _ (Nat.zero_le _) (by omega)).symm
  prevTerm := by
    have := h.length
    rw [lastTerm_take_evolve ev (by omega)]
    exact h.prevTerm
  commit := h.commit.evolve hs ev

theorem CallRel.evolve {c : Call n C} (h : CallRel a c) : CallRel a' c := by
  cases hargs : c.args with
  | requestVote args =>
    rw [callRel_vote hargs] at h ⊢
    exact VoteCall.evolve hs ev h
  | appendEntries args =>
    rw [callRel_entries hargs] at h ⊢
    refine ⟨ev.leader _ _ h.leader, h.entries.evolve hs ev, fun reply hr hok => ?_⟩
    exact (h.success reply hr hok).imp (fun hle => Nat.le_trans hle (ev.acked _ _))
      fun hcov => hcov.evolve hs ev
  | installSnapshot args =>
    rw [callRel_snapshot hargs] at h ⊢
    refine ⟨ev.leader _ _ h.leader, h.covered.evolve hs ev, ?_⟩
    have hled : a.leader args.term ≠ none := by
      rw [h.leader]
      exact Option.some_ne_none _
    rw [lastTerm_take_evolve ev (hs.covered_le_length hled h.covered)]
    exact h.lastTerm

/-- A server whose voter did not change, and which was not elected now. -/
theorem Tracks.evolve {v : Fin n} {rf : Raft n C} (h : Tracks a v rf)
    (hknown : ∀ k, a.Known v k → a'.Known v k)
    (hfollows : ∀ k, a.Follows v rf.currentTerm k → a'.Follows v rf.currentTerm k)
    (hled : a'.leader rf.currentTerm = some v → a.leader rf.currentTerm = some v) :
    Tracks a' v rf where
  commit := hknown _ h.commit
  applied := hknown _ h.applied
  snap_le := h.snap_le
  snapshotMsg := h.snapshotMsg.evolve hs ev hknown
  leaderTerm := h.leaderTerm
  verified hl := (h.verified hl).imp (hknown _) (hfollows _)
  matched hT j := (h.matched (hled hT) j).imp (fun hle => Nat.le_trans hle (ev.acked _ _))
    fun hcov => hcov.evolve hs ev

theorem NodeRel.evolve {v : Fin n} {node : Node n C} (h : NodeRel a v node)
    (heq : a'.voter v = a.voter v)
    (hled : ∀ T, a'.leader T = some v → a.leader T = some v) : NodeRel a' v node := by
  have hknown : ∀ k, a.Known v k → a'.Known v k := fun k hk => hk.of_voter_eq hs ev heq
  refine ⟨by rw [heq]; exact h.stores, h.tracks.evolve hs ev hknown (fun k hf => ?_) (hled _),
    hknown _ h.delivered, fun msgs last hap => ?_⟩
  · refine hf.evolve ev ?_
    rw [heq]
    exact .refl _ _ _
  · obtain ⟨hmsgs, hlast⟩ := h.applying msgs last hap
    exact ⟨fun m hm => (hmsgs m hm).evolve hs ev hknown, fun i hi => hknown i (hlast i hi)⟩

end Evolve

end RaftLabs.Raft
