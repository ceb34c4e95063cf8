import RaftLabs.Raft.Ballots
import RaftLabs.Raft.Steps

/-! Votes over whole runs, crashes included.

A vote is durable as soon as it is cast: the server's saved term never falls below
a term it voted in, and while it is in that term, in memory or on disk, it still
holds the vote. The one thing that breaks this is a leader's request of the
server's own term when `LeaderTerm` does not name that term, which clears the
vote (`clearedVote`). So a server never votes for two candidates in a term in a
run where no step clears a vote. `LeaderTerm` is volatile and a candidate does
not set it, so such steps exist. -/
namespace RaftLabs.Raft
open Lib World
variable {n : Nat} {C : Type}

/-! ### Steps that clear a vote -/

/-- The term of a leader's request. -/
def Args.leaderTerm : Args n C → Option Nat
  | .requestVote _ => none
  | .appendEntries args => some args.term
  | .installSnapshot args => some args.term

/-- The vote the action clears: a server and the candidate it drops without leaving
the term. -/
def World.clearedVote (w : World n C) : Action n C → Option (Fin n × Fin n)
  | .handle k =>
    match w.calls[k]? with
    | none => none
    | some c =>
      let rf := (w.nodes c.dst).raft
      if c.args.leaderTerm = some rf.currentTerm ∧ rf.leaderTerm ≠ some rf.currentTerm then
        rf.votedFor.map fun candidate => (c.dst, candidate)
      else none
  | _ => none

theorem clearedVote_handle {w : World n C} {k : Nat} {c : Call n C} {candidate : Fin n}
    (hk : w.calls[k]? = some c)
    (hterm : c.args.leaderTerm = some (w.nodes c.dst).raft.currentTerm)
    (hother : (w.nodes c.dst).raft.leaderTerm ≠ some (w.nodes c.dst).raft.currentTerm)
    (hvote : (w.nodes c.dst).raft.votedFor = some candidate) :
    w.clearedVote (.handle k) = some (c.dst, candidate) := by
  simp [World.clearedVote, hk, hterm, hother, hvote]

/-- A vote is cleared by a leader's request of the server's own term. -/
theorem clearedVote_cases {w : World n C} {a : Action n C} {v candidate : Fin n}
    (h : w.clearedVote a = some (v, candidate)) :
    ∃ c ∈ w.calls, c.dst = v ∧ c.args.leaderTerm = some (w.nodes v).raft.currentTerm ∧
      (w.nodes v).raft.leaderTerm ≠ some (w.nodes v).raft.currentTerm ∧
      (w.nodes v).raft.votedFor = some candidate := by
  cases a with
  | handle k =>
    simp only [World.clearedVote] at h
    split at h
    · cases h
    · rename_i c hk
      split at h
      · rename_i hterm
        obtain ⟨cand, hcand, heq⟩ := Option.map_eq_some_iff.mp h
        cases heq
        exact ⟨c, List.mem_of_getElem? hk, rfl, hterm.1, hterm.2, hcand⟩
      · cases h
  | _ => cases h

/-! ### The votes of one server -/

/-- Server `v` holds its votes: every term it voted in is saved, and in that term
a vote that `K` protects is in place, in memory and on disk. -/
structure HoldsVotes (K : Fin n → Fin n → Nat → Prop) (trace : List (Event n C)) (v : Fin n)
    (rf : Raft n C) : Prop where
  me : rf.me = v
  durable : rf.savedTerm ≤ rf.currentTerm
  voted : ∀ c T, Event.vote v c T ∈ trace → T ≤ rf.savedTerm
  cast : ∀ c T, Event.vote v c T ∈ trace → K v c T → rf.currentTerm = T → rf.votedFor = some c
  saved : ∀ c T, Event.vote v c T ∈ trace → K v c T → rf.savedTerm = T → rf.savedVote = some c
  single : ∀ c c' T, Event.vote v c T ∈ trace → Event.vote v c' T ∈ trace → K v c T → K v c' T →
    c = c'

variable {K : Fin n → Fin n → Nat → Prop} {trace : List (Event n C)} {v : Fin n} {rf rf' : Raft n C}

/-- Events that are not votes of `v` do not matter to it. -/
theorem HoldsVotes.observe (h : HoldsVotes K trace v rf) {events : List (Event n C)}
    (he : ∀ c T, Event.vote v c T ∉ events) : HoldsVotes K (trace ++ events) v rf := by
  have old : ∀ c T, Event.vote v c T ∈ trace ++ events → Event.vote v c T ∈ trace := by
    intro c T hm
    exact (List.mem_append.mp hm).resolve_right (he c T)
  exact ⟨h.me, h.durable, fun c T hm => h.voted c T (old c T hm),
    fun c T hm => h.cast c T (old c T hm), fun c T hm => h.saved c T (old c T hm),
    fun c c' T hm hm' => h.single c c' T (old c T hm) (old c' T hm')⟩

theorem HoldsVotes.quiet (h : HoldsVotes K trace v rf) (hq : Quiet rf rf')
    (hr : VoteReset rf rf' → ∀ c, rf.votedFor = some c → ¬ K v c rf.currentTerm) :
    HoldsVotes K trace v rf' := by
  have hterm : rf.currentTerm ≤ rf'.currentTerm := by
    rcases hq.ballot with hb | hb | hb
    · exact Nat.le_of_eq hb.term.symm
    · exact Nat.le_of_lt hb.term
    · exact Nat.le_of_eq hb.term.symm
  have hcast : ∀ c T, Event.vote v c T ∈ trace → K v c T → rf'.currentTerm = T →
      rf'.votedFor = some c := by
    intro c T hm hK heq
    rcases hq.ballot with hb | hb | hb
    · rw [hb.vote]
      exact h.cast c T hm hK (hb.term.symm.trans heq)
    · -- a vote in a term the server has not reached
      have := h.voted c T hm
      have := h.durable
      have := hb.term
      omega
    · have hT : rf.currentTerm = T := hb.term.symm.trans heq
      subst hT
      exact absurd hK (hr hb c (h.cast c _ hm hK rfl))
  refine ⟨hq.me.trans h.me, ?_, ?_, hcast, ?_, h.single⟩
  · rcases hq.saved with hs | hs
    · rw [hs.1]
      exact Nat.le_trans h.durable hterm
    · exact Nat.le_of_eq hs.1
  · intro c T hm
    have hT := h.voted c T hm
    rcases hq.saved with hs | hs
    · rw [hs.1]
      exact hT
    · rw [hs.1]
      exact Nat.le_trans hT (Nat.le_trans h.durable hterm)
  · intro c T hm hK heq
    rcases hq.saved with hs | hs
    · rw [hs.2]
      exact h.saved c T hm hK (hs.1.symm.trans heq)
    · rw [hs.2]
      exact hcast c T hm hK (hs.1.symm.trans heq)

theorem HoldsVotes.steady (h : HoldsVotes K trace v rf) (hs : Steady rf rf') :
    HoldsVotes K trace v rf' :=
  h.quiet hs.1 fun hr => absurd hr hs.2

/-- Starting an election votes for oneself in a term not reached before. -/
theorem HoldsVotes.election (h : HoldsVotes K trace v rf) :
    HoldsVotes K (trace ++ [.vote v v (rf.currentTerm + 1)]) v (prepareElection rf).1 := by
  have hsplit : ∀ c T, Event.vote v c T ∈ trace ++ [.vote v v (rf.currentTerm + 1)] →
      (Event.vote v c T ∈ trace ∧ T ≤ rf.currentTerm) ∨ (c = v ∧ T = rf.currentTerm + 1) := by
    intro c T hm
    rcases List.mem_append.mp hm with hm | hm
    · exact .inl ⟨hm, Nat.le_trans (h.voted c T hm) h.durable⟩
    · simp only [List.mem_singleton, Event.vote.injEq] at hm
      exact .inr ⟨hm.2.1, hm.2.2⟩
  have hmine : (prepareElection rf).1.votedFor = some v := by
    show some rf.me = some v
    rw [h.me]
  refine ⟨h.me, Nat.le_refl _, ?_, ?_, ?_, ?_⟩
  · intro c T hm
    show T ≤ rf.currentTerm + 1
    rcases hsplit c T hm with ⟨_, hT⟩ | ⟨_, hT⟩ <;> omega
  · intro c T hm _ heq
    have hT : rf.currentTerm + 1 = T := heq
    rcases hsplit c T hm with ⟨_, _⟩ | ⟨rfl, _⟩
    · omega
    · exact hmine
  · intro c T hm _ heq
    have hT : rf.currentTerm + 1 = T := heq
    rcases hsplit c T hm with ⟨_, _⟩ | ⟨rfl, _⟩
    · omega
    · exact hmine
  · intro c c' T hm hm' hK hK'
    rcases hsplit c T hm with ⟨hm, _⟩ | ⟨rfl, _⟩ <;>
      rcases hsplit c' T hm' with ⟨hm', _⟩ | ⟨rfl, _⟩
    · exact h.single c c' T hm hm' hK hK'
    · omega
    · omega
    · rfl

/-- A granted vote goes to a candidate no other vote of the term stands against. -/
theorem HoldsVotes.grant (h : HoldsVotes K trace v rf) (args : RequestVoteArgs n)
    (hle : rf.currentTerm ≤ args.term)
    (hfree : rf.currentTerm = args.term →
      rf.votedFor = none ∨ rf.votedFor = some args.candidateId) :
    HoldsVotes K (trace ++ [.vote v args.candidateId args.term]) v
      { (if rf.currentTerm < args.term then (rf.stepDown args.term).persist else rf) with
        votedFor := some args.candidateId }.persist := by
  have hterm : (if rf.currentTerm < args.term then (rf.stepDown args.term).persist
      else rf).currentTerm = args.term := by
    split
    · rfl
    · omega
  have hme : (if rf.currentTerm < args.term then (rf.stepDown args.term).persist else rf).me = v := by
    split <;> exact h.me
  -- an earlier vote of the same term has the same candidate
  have hsame : ∀ c, Event.vote v c args.term ∈ trace → K v c args.term → c = args.candidateId := by
    intro c hm hK
    have heq : rf.currentTerm = args.term := by
      have := h.voted c args.term hm
      have := h.durable
      omega
    have hc := h.cast c args.term hm hK heq
    rcases hfree heq with hf | hf
    · rw [hc] at hf
      cases hf
    · rw [hc] at hf
      exact Option.some.inj hf
  have hnew : ∀ c T, Event.vote v c T ∈ trace ++ [.vote v args.candidateId args.term] → K v c T →
      T = args.term → c = args.candidateId := by
    intro c T hm hK hT
    subst hT
    rcases List.mem_append.mp hm with hm | hm
    · exact hsame c hm hK
    · simp only [List.mem_singleton, Event.vote.injEq] at hm
      exact hm.2.1
  generalize (if rf.currentTerm < args.term then (rf.stepDown args.term).persist else rf) = rf₁
    at hterm hme
  refine ⟨hme, Nat.le_refl _, ?_, ?_, ?_, ?_⟩
  · intro c T hm
    show T ≤ rf₁.currentTerm
    rw [hterm]
    rcases List.mem_append.mp hm with hm | hm
    · exact Nat.le_trans (h.voted c T hm) (Nat.le_trans h.durable hle)
    · simp only [List.mem_singleton, Event.vote.injEq] at hm
      exact Nat.le_of_eq hm.2.2
  · intro c T hm hK heq
    show some args.candidateId = some c
    rw [hnew c T hm hK (heq.symm.trans hterm)]
  · intro c T hm hK heq
    show some args.candidateId = some c
    have heq' : rf₁.currentTerm = T := heq
    rw [hnew c T hm hK (heq'.symm.trans hterm)]
  · intro c c' T hm hm' hK hK'
    by_cases hT : T = args.term
    · rw [hnew c T hm hK hT, hnew c' T hm' hK' hT]
    · have old : ∀ c, Event.vote v c T ∈ trace ++ [.vote v args.candidateId args.term] →
          Event.vote v c T ∈ trace := by
        intro c hm
        refine (List.mem_append.mp hm).resolve_right fun hm => hT ?_
        simp only [List.mem_singleton, Event.vote.injEq] at hm
        exact hm.2.2
      exact h.single c c' T (old c hm) (old c' hm') hK hK'

theorem HoldsVotes.restart (h : HoldsVotes K trace v rf) :
    HoldsVotes K trace v (make v rf.persister) := by
  rw [make_eq]
  exact ⟨rfl, Nat.le_refl _, h.voted, h.saved, h.saved, h.single⟩

/-! ### The votes of all servers -/

/-- Every server holds its votes. -/
def AllHoldVotes (K : Fin n → Fin n → Nat → Prop) (w : World n C) : Prop :=
  ∀ v, HoldsVotes K w.trace v (w.nodes v).raft

theorem AllHoldVotes.setNode {w : World n C} (h : AllHoldVotes K w) (i : Fin n) (node : Node n C)
    (hi : HoldsVotes K w.trace i node.raft) : AllHoldVotes K (w.setNode i node) :=
  forall_setNode (P := fun v node => HoldsVotes K w.trace v node.raft) h hi

theorem AllHoldVotes.setRaft {w : World n C} (h : AllHoldVotes K w) (i : Fin n)
    (hs : Steady (w.nodes i).raft rf') : AllHoldVotes K (w.setRaft i rf') :=
  h.setNode i _ ((h i).steady hs)

theorem AllHoldVotes.observe {w : World n C} (h : AllHoldVotes K w) (events : List (Event n C))
    (he : ∀ v c T, Event.vote v c T ∉ events) : AllHoldVotes K (w.observe events) :=
  fun v => (h v).observe (he v)

theorem AllHoldVotes.panic {w : World n C} (h : AllHoldVotes K w) (i : Fin n) :
    AllHoldVotes K (w.panic i) := h.setNode i _ (h i)

theorem AllHoldVotes.sendHeartBeat {w : World n C} (h : AllHoldVotes K w) (i : Fin n) :
    AllHoldVotes K (w.sendHeartBeat i) := by
  unfold World.sendHeartBeat
  split
  · exact h.panic i
  · exact h

/-- A server whose vote changes, with the vote put on record. -/
theorem AllHoldVotes.vote {w : World n C} (h : AllHoldVotes K w) (i c : Fin n) (T : Nat)
    (node : Node n C) (hi : HoldsVotes K (w.trace ++ [.vote i c T]) i node.raft) :
    AllHoldVotes K ((w.setNode i node).observe [.vote i c T]) := by
  intro v
  by_cases hv : v = i
  · subst hv
    rw [observe_nodes, observe_trace, setNode_self]
    exact hi
  · rw [observe_nodes, observe_trace, setNode_ne w node hv]
    refine (h v).observe fun c' T' hm => ?_
    simp only [List.mem_singleton, Event.vote.injEq] at hm
    exact hv hm.1

theorem becomeLeader_holds (h : HoldsVotes K trace v rf) : HoldsVotes K trace v rf.becomeLeader :=
  ⟨h.me, h.durable, h.voted, h.cast, h.saved, h.single⟩

/-- Votes are held through every step that clears none that `K` protects. -/
theorem AllHoldVotes.step {w w' : World n C} {a : Action n C} (h : AllHoldVotes K w)
    (hkeep : ∀ v c, w.clearedVote a = some (v, c) → ¬ K v c (w.nodes v).raft.currentTerm)
    (hs : Stepped w a w') : AllHoldVotes K w' := by
  cases hs with
  | idle => exact h
  | panic i => exact h.panic i
  | election i _ => exact h.vote i i _ _ (h i).election
  | heartBeat i _ => exact h.sendHeartBeat i
  | replicateSnapshot => exact h
  | replicateEntries => exact h
  | commit i hlead index hscan =>
    refine AllHoldVotes.observe (h.setRaft i ?_) _ (by simp)
    exact .of_same rfl (.inl ⟨rfl, rfl⟩) rfl ⟨rfl, rfl, rfl⟩
  | requestVote k c args hk hargs hsent =>
    rcases requestVote_cases (w.nodes c.dst).raft args with ⟨hno, hst⟩ | ⟨hyes, hle, hfree, _, heq⟩
    · rw [hno]
      exact AllHoldVotes.observe (h.setRaft c.dst hst) _ (by simp)
    · rw [hyes, heq]
      exact h.vote c.dst args.candidateId args.term _ ((h c.dst).grant args hle hfree)
  | appendEntries k c args hk hargs hsent rf reply happ =>
    refine h.setNode c.dst _ ((h c.dst).quiet (appendEntries_quiet happ) ?_)
    intro hr cand hcand
    refine hkeep c.dst cand (clearedVote_handle hk ?_ hr.other hcand)
    rw [hargs, ← appendEntries_reset happ hr]
    rfl
  | installSnapshot k c args hk hargs hsent rf reply hins =>
    refine h.setNode c.dst _ ((h c.dst).quiet (installSnapshot_quiet hins) ?_)
    intro hr cand hcand
    refine hkeep c.dst cand (clearedVote_handle hk ?_ hr.other hcand)
    rw [hargs, ← installSnapshot_reset hins hr]
    rfl
  | lose => exact h
  | returned => exact h
  | returnedPanic k c => exact AllHoldVotes.panic (w := w.advance k c _) h c.src
  | voteCounted k c => exact AllHoldVotes.setNode (w := w.advance k c _) h c.src _ (h c.src)
  | elected k c args reply =>
    refine AllHoldVotes.sendHeartBeat ?_ c.src
    unfold World.elect
    refine AllHoldVotes.observe ?_ _ (by simp)
    exact AllHoldVotes.setNode (w := w.advance k c _) h c.src _ (becomeLeader_holds (h c.src))
  | voteRefused k c args reply _ _ _ hterm =>
    exact AllHoldVotes.setRaft (w := w.advance k c _) h c.src (stepDown_steady _ hterm)
  | appendReturned k c args reply rf _ _ _ _ _ happ =>
    exact AllHoldVotes.setRaft (w := w.advance k c _) h c.src (appendEntriesReturned_steady happ)
  | installReturned k c args reply =>
    exact AllHoldVotes.setRaft (w := w.advance k c _) h c.src
      (installSnapshotReturned_steady _ _ _ _)
  | start i command => exact h.setRaft i (start_steady _ command)
  | snapshot i index data _ rf hsnap => exact h.setRaft i (snapshot_steady hsnap)
  | applyTake i _ rf msgs last happ =>
    exact h.setNode i _ ((h i).steady (applyLog_steady happ))
  | applySend i msg rest last _ =>
    unfold World.applySend
    refine AllHoldVotes.observe ?_ _ (by simp)
    exact h.setNode i _ (h i)
  | applyDone i last _ => exact h.setNode i _ ((h i).steady (applied_steady _ last))
  | restart i => exact h.setNode i _ (h i).restart

theorem allHoldVotes_init (K : Fin n → Fin n → Nat → Prop) : AllHoldVotes K (World.initial n C) := by
  intro v
  exact ⟨rfl, Nat.le_refl _, nofun, nofun, nofun, nofun⟩

theorem allHoldVotes_reach {ok : World n C → Action n C → Prop}
    (hok : ∀ w a, ok w a → ∀ v c, w.clearedVote a = some (v, c) →
      ¬ K v c (w.nodes v).raft.currentTerm) {w : World n C}
    (h : (cluster n C).Reach ok w) : AllHoldVotes K w :=
  h.invariant (allHoldVotes_init K) fun _ _ _ _ hi ha hs => hi.step (hok _ _ ha) (stepped hs)

/-! ### One vote per term -/

/-- No server has voted for two candidates in one term. -/
def SingleVote (w : World n C) : Prop :=
  ∀ v c c' T, Event.vote v c T ∈ w.trace → Event.vote v c' T ∈ w.trace → c = c'

/-- The step clears no vote. -/
def clearsNoVote (w : World n C) (a : Action n C) : Prop := w.clearedVote a = none

instance (w : World n C) (a : Action n C) : Decidable (clearsNoVote w a) :=
  inferInstanceAs (Decidable (w.clearedVote a = none))

/-- **One vote per term**, through every message order and every crash, in a run
where no step clears a vote. -/
theorem single_vote_of_none_cleared {w : World n C} (h : (cluster n C).Reach clearsNoVote w) :
    SingleVote w := by
  intro v c c' T hc hc'
  have hall : AllHoldVotes (fun _ _ _ => True) w :=
    allHoldVotes_reach (fun _ _ ha v c hcl => by rw [ha] at hcl; cases hcl) h
  exact (hall v).single c c' T hc hc' trivial trivial

/-- Server 1 votes for server 0, restarts, and is asked by the other candidate of
the term, server 2, which it refuses. -/
def voteOnce : List (Action 3 Nat) :=
  [.electionTimeout 0, .electionTimeout 2, .handle 0, .restart 1, .handle 3, .ret 0]

theorem voteOnce_runs :
    (((cluster 3 Nat).runWhere clearsNoVote (cluster 3 Nat).init voteOnce).map fun w =>
      decide (.vote 1 0 1 ∈ w.trace ∧ .lead 0 1 ∈ w.trace)) = some true := by
  decide +kernel

theorem single_vote_voteOnce : ∃ w : World 3 Nat, (cluster 3 Nat).Reach clearsNoVote w ∧
    Event.vote 1 0 1 ∈ w.trace ∧ SingleVote w := by
  obtain ⟨w, hrun, hvotes⟩ := Option.map_eq_some_iff.mp voteOnce_runs
  have hreach := System.reach_runWhere .init voteOnce hrun
  exact ⟨w, hreach, (of_decide_eq_true hvotes).1, single_vote_of_none_cleared hreach⟩

/-- Two candidates of term 1. Server 1 voted for itself; the first leader's
heartbeat clears that vote, and the leader's own delayed request then gets it. -/
def voteTwice : List (Action 3 Nat) :=
  [.electionTimeout 0, .electionTimeout 1,
   .handle 1, .ret 1,  -- server 2 votes for server 0, which becomes leader
   .handle 4,          -- its heartbeat reaches server 1
   .handle 0]          -- and then its request for a vote

theorem voteTwice_votes :
    (((cluster 3 Nat).run (cluster 3 Nat).init voteTwice).map fun w =>
      decide (.vote 1 1 1 ∈ w.trace ∧ .vote 1 0 1 ∈ w.trace)) = some true := by
  decide +kernel

/-- Without that condition a server can vote twice, even with no crash. -/
theorem votes_twice : ¬ ∀ w : World 3 Nat, (cluster 3 Nat).Reach System.anyStep w → SingleVote w := by
  intro hall
  obtain ⟨w, hrun, hvotes⟩ := Option.map_eq_some_iff.mp voteTwice_votes
  obtain ⟨hself, hother⟩ := of_decide_eq_true hvotes
  have hreach : (cluster 3 Nat).Reach System.anyStep w :=
    System.reach_run .init (fun _ _ => trivial) voteTwice hrun
  exact absurd (hall w hreach 1 1 0 1 hself hother) (by decide)

end RaftLabs.Raft
