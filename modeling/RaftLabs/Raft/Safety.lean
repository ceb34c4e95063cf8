import RaftLabs.Raft.Followers
import RaftLabs.Raft.Leaders
import RaftLabs.Raft.Memory

/-! State machine safety and leader completeness.

Every reachable cluster implements a sound replicated log, as long as crashes lose
nothing that matters. Two of the things they lose do matter. A server that restarts
forgets `LeaderTerm`, and the next request of its term's leader then clears a vote
it had given to another server. A server that restarts right after
`InstallSnapshot` resumes with the term its own log had at the snapshot's index, and
not with the sender's. `recovers` rules out exactly these two.

On arrays the requests must also be encoded in time: a request whose entries are
overwritten breaks both properties, without any crash. -/
namespace RaftLabs.Raft
open Lib World ReplicatedLog
variable {n : Nat} {C : Type} {w w' : World n C} {a : Ghost n C} {i : Fin n}

/-! ### Restarts -/

/-- A server that restarts has on disk the snapshot term it has in memory. -/
def savesSnapshotTerm (w : World n C) : Action n C → Prop
  | .restart i => (w.nodes i).raft.savedSnapshotTerm = (w.nodes i).raft.snapshotLastIncludedTerm
  | _ => True

instance (w : World n C) : (a : Action n C) → Decidable (savesSnapshotTerm w a)
  | .restart i => inferInstanceAs (Decidable
      ((w.nodes i).raft.savedSnapshotTerm = (w.nodes i).raft.snapshotLastIncludedTerm))
  | .electionTimeout _ | .heartBeat _ | .replicateLog _ _ _ | .updateCommitIndex _ _ | .handle _
  | .lose _ | .ret _ | .start _ _ | .snapshot _ _ _ | .applyTake _ | .applySend _
  | .applyDone _ => isTrue trivial

/-- A restart brings the voter back to its durable term; of what it knew to be
committed, the snapshot is left. -/
theorem Rel.restart (h : Rel w a) (hs : a.Sound RaftLogEntry.term)
    (hsave : (w.nodes i).raft.savedSnapshotTerm = (w.nodes i).raft.snapshotLastIncludedTerm) :
    ∃ a' : Ghost n C, a'.Sound RaftLogEntry.term ∧ Succeeds a a' ∧ Rel (w.restart i) a' := by
  have hst := (h.nodes i).stores
  have hs' := hs.setTerm (v := i) (Nat.le_refl (a.voter i).durable) (Nat.le_refl _)
  have ev : Evolves a (a.setTerm i (a.voter i).durable (a.voter i).durable) :=
    .setTerm (Nat.le_refl _)
  refine ⟨_, hs', ⟨ev, fun _ _ hT => .inr ⟨hT, rfl⟩⟩, h.evolve hs ev (fun v hv => setVoter_ne _ hv)
    (fun _ _ _ hT => hT) h.indexed rfl (fun v hv => setNode_ne w _ hv) ?_ h.leaders
    fun e he => .inl he⟩
  have hsnap : (a.setTerm i (a.voter i).durable (a.voter i).durable).Known i
      (w.nodes i).raft.savedSnapshotIndex := by
    have := hs'.known_snap (v := i)
    rwa [setTerm_voter_self, show (a.voter i).snap = _ from hst.snap.trans hst.savedSnap.symm] at this
  unfold World.restart Node.boot
  rw [setNode_self, make_eq]
  refine ⟨?_, ⟨hsnap, hsnap, Nat.le_refl _, deliverable_empty, nofun, nofun,
    fun _ _ => .inl (Nat.zero_le _)⟩, hsnap, nofun⟩
  rw [setTerm_voter_self]
  exact ⟨⟨hst.durable, hst.snap.trans hst.savedSnap.symm, hst.logs.trans hst.savedLogs.symm,
    hst.snapTerm.trans hsave.symm⟩, hst.durable, rfl, rfl⟩

/-! ### Every step -/

/-- The vote that decides an election. -/
theorem Rel.elected (h : Rel w a) (hs : a.Sound RaftLogEntry.term) (he : ElectionSafe w)
    {k : Nat} {c : Call n C} {args : RequestVoteArgs n} {reply : RequestVoteReply}
    (hk : w.calls[k]? = some c) (hargs : c.args = .requestVote args)
    (hreply : c.progress = .handled (.requestVote reply)) (hgrant : reply.voteGranted = true)
    (hterm : (w.nodes c.src).raft.currentTerm = args.term)
    (hvotes : n / 2 < (w.nodes c.src).votes args.term + 1) :
    ∃ a' : Ghost n C, a'.Sound RaftLogEntry.term ∧ Succeeds a a' ∧
      Rel (((w.advance k c (.returned (some (.requestVote reply)))).elect c.src).sendHeartBeat
        c.src) a' := by
  have h₁ : Rel (w.advance k c (.returned (some (.requestVote reply)))) a := by
    refine h.returned hk fun r hr => ?_
    cases hr
    exact hreply
  have hunique := (he.elections.elect he.votes hk hargs hreply hgrant hterm hvotes).unique
  have hlead : Event.lead c.src (w.nodes c.src).raft.currentTerm ∈
      ((w.advance k c (.returned (some (.requestVote reply)))).elect c.src).trace :=
    List.mem_append_right _ (List.mem_singleton.mpr rfl)
  have hdur : (a.voter c.src).durable = (w.nodes c.src).raft.currentTerm := by
    have hreached := ((callRel_vote hargs).mp (h.calls c (List.mem_of_getElem? hk))).reached
    have hle := (hs.voters c.src).durable_le
    rw [(h.nodes c.src).stores.term] at hle
    omega
  obtain ⟨Q, hcard, hQ⟩ := he.elections.majority hk hargs hreply hgrant hvotes
  rw [← hterm] at hQ
  obtain ⟨a', hs', ev, h'⟩ := h₁.elect hs (he.votes c.src).me (fun v hv => hunique v c.src _
    (List.mem_append_left _ (h.leaders _ v hv)) hlead) hdur (majority_of_half hcard) hQ
  refine ⟨a', hs', ev, h'.sendHeartBeat hs' (h'.leads hs' ?_)⟩
  unfold World.elect at hlead ⊢
  rw [observe_nodes, setNode_self]
  exact hlead

/-- Every step of a cluster that recovers keeps it an implementation of a sound
replicated log. -/
theorem Rel.step {act : Action n C} (h : Rel w a) (hs : a.Sound RaftLogEntry.term)
    (he : ElectionSafe w) (hsave : savesSnapshotTerm w act) (hst : Stepped w act w') :
    ∃ a' : Ghost n C, a'.Sound RaftLogEntry.term ∧ Succeeds a a' ∧ Rel w' a' := by
  have hleads : ∀ {i : Fin n}, (w.nodes i).raft.currentTerm ∈ (w.nodes i).leading →
      Leads a i (w.nodes i).raft.currentTerm := fun hm => h.leads hs (he.elections.leading _ _ hm)
  have hrole : ∀ {i : Fin n}, (w.nodes i).raft.state = .leader →
      Leads a i (w.nodes i).raft.currentTerm := fun hr => h.leads hs (he.elections.role _ hr)
  have hremote : ∀ {k : Nat} {c : Call n C}, w.calls[k]? = some c → c.dst ≠ c.src := fun hk =>
    (he.elections.genuine _ (List.mem_of_getElem? hk)).remote
  have hvote : ∀ {c : Call n C} {reply : RequestVoteReply},
      c.progress = .handled (.requestVote reply) →
      ∀ r, some (.requestVote reply) = some r → c.progress = .handled r := by
    intro c reply hp r hr
    cases hr
    exact hp
  cases hst with
  | idle => exact ⟨a, hs, .refl a, h⟩
  | panic i => exact ⟨a, hs, .refl a, h.panic i⟩
  | election i _ => exact h.election hs i
  | heartBeat i hstate => exact ⟨a, hs, .refl a, h.sendHeartBeat hs (hrole hstate)⟩
  | replicateSnapshot i j _ hlead args hrep =>
    exact ⟨a, hs, .refl a, h.replicateSnapshot hs (hleads hlead) hrep⟩
  | replicateEntries i j _ hlead args hrep =>
    exact ⟨a, hs, .refl a, h.replicateEntries hs (hleads hlead) hrep⟩
  | commit i hlead index hscan => exact ⟨a, hs, .refl a, h.commit hs (hleads hlead) hscan⟩
  | requestVote k c args hk hargs _ => exact h.requestVote hs hk hargs
  | appendEntries k c args hk hargs _ rf reply happ =>
    exact h.appendEntries hs hk hargs (hremote hk) happ
  | installSnapshot k c args hk hargs _ rf reply hins =>
    exact h.installSnapshot hs hk hargs (hremote hk) hins
  | lose k c hk _ =>
    exact ⟨a, hs, .refl a, h.advance ((h.calls c (List.mem_of_getElem? hk)).progress nofun)⟩
  | returned k c reply hk hreply _ => exact ⟨a, hs, .refl a, h.returned hk hreply⟩
  | returnedPanic k c reply hk hreply _ => exact ⟨a, hs, .refl a, (h.returned hk hreply).panic c.src⟩
  | voteCounted k c args reply hk _ hreply _ _ =>
    have hn := h.nodes c.src
    exact ⟨a, hs, .refl a, (h.returned hk (hvote hreply)).setNode
      ⟨hn.stores, hn.tracks, hn.delivered, hn.applying⟩⟩
  | elected k c args reply hk hargs hreply hgrant _ hterm hvotes =>
    exact h.elected hs he hk hargs hreply hgrant hterm hvotes
  | voteRefused k c args reply hk _ hreply hterm =>
    exact (h.returned hk (hvote hreply)).stepDown hs hterm
  | appendReturned k c args reply rf hk hargs hreply _ _ hret =>
    exact h.appendReturned hs hk hargs hreply hret
  | installReturned k c args reply hk hargs hreply _ _ =>
    exact h.installReturned hs hk hargs hreply
  | start i command => exact h.start hs command fun hr => ⟨hrole hr, (he.votes i).me⟩
  | snapshot i index data hindex rf hsnap => exact h.snapshot hs hindex hsnap
  | applyTake i _ rf msgs last happ => exact ⟨a, hs, .refl a, h.applyTake hs happ⟩
  | applySend i msg rest last happ => exact ⟨a, hs, .refl a, h.applySend happ⟩
  | applyDone i last happ => exact ⟨a, hs, .refl a, h.applyDone happ⟩
  | restart i => exact h.restart hs hsave

/-! ### Every run -/

instance (w : World n C) (act : Action n C) : Decidable (clearsOwnVotes w act) :=
  inferInstanceAs (Decidable (∀ v c, w.clearedVote act = some (v, c) → c = v))

/-- Nothing that matters is lost: the step clears no vote for another server, and a
restart finds the snapshot term on disk. -/
def recovers (w : World n C) (act : Action n C) : Prop :=
  clearsOwnVotes w act ∧ savesSnapshotTerm w act

instance (w : World n C) (act : Action n C) : Decidable (recovers w act) :=
  inferInstanceAs (Decidable (clearsOwnVotes w act ∧ savesSnapshotTerm w act))

/-- The cluster is safe in its elections and implements a sound replicated log. -/
def Implements (w : World n C) : Prop :=
  ElectionSafe w ∧ ∃ a : Ghost n C, a.Sound RaftLogEntry.term ∧ Rel w a

theorem rel_initial : Rel (World.initial n C) (.empty (Fin n) (RaftLogEntry C)) := by
  refine ⟨nofun, (fun _ _ _ h => nomatch h), fun v => ?_, nofun, nofun⟩
  have htracks : Tracks (.empty (Fin n) (RaftLogEntry C)) v (make v {}) :=
    ⟨.inl rfl, .inl rfl, Nat.le_refl _, deliverable_empty, nofun, nofun,
      fun _ _ => .inl (Nat.zero_le _)⟩
  exact ⟨⟨⟨rfl, rfl, rfl, rfl⟩, rfl, rfl, rfl⟩, htracks, .inl rfl, nofun⟩

theorem implements_init : Implements (World.initial n C) :=
  ⟨electionSafe_init, _, sound_empty _, rel_initial⟩

theorem implements_reach (h : (cluster n C).Reach recovers w) : Implements w := by
  refine h.invariant implements_init fun w act w' _ ⟨he, a, hs, hrel⟩ hok hstep => ?_
  have hst := stepped hstep
  obtain ⟨a', hs', -, hrel'⟩ := hrel.step hs he hok.2 hst
  exact ⟨he.step hok.1 hst, a', hs', hrel'⟩

/-- A run without a crash loses nothing. -/
theorem recovers_of_crashFree (h : (cluster n C).Reach crashFree w) :
    (cluster n C).Reach recovers w := by
  refine h.mono fun w act hreach _ hfree => ?_
  obtain ⟨hsafe, hset⟩ := crashFree_safe hreach
  refine ⟨hset.clearsOwnVotes hsafe.votes act, ?_⟩
  cases act with
  | restart i => cases hfree
  | _ => trivial

/-- One step of a run without a crash, as a step of the replicated log. -/
theorem Rel.next {act : Action n C} (h : Rel w a) (hs : a.Sound RaftLogEntry.term)
    (hreach : (cluster n C).Reach crashFree w) (hfree : crashFree w act)
    (hstep : (cluster n C).step w act = some w') :
    ∃ a' : Ghost n C, a'.Sound RaftLogEntry.term ∧ Succeeds a a' ∧ Rel w' a' := by
  refine h.step hs (implements_reach (recovers_of_crashFree hreach)).1 ?_ (stepped hstep)
  cases act with
  | restart i => cases hfree
  | _ => trivial

/-- The invariant rule for a world and its replicated log together: what holds at the start and
survives every step of both holds of every state of a run without a crash. -/
theorem exists_ghost {P : World n C → Ghost n C → Prop}
    (hinit : P (World.initial n C) (.empty (Fin n) (RaftLogEntry C)))
    (hnext : ∀ w a act w' a', (cluster n C).Reach crashFree w → a.Sound RaftLogEntry.term →
      Rel w a → P w a → crashFree w act → (cluster n C).step w act = some w' →
      a'.Sound RaftLogEntry.term → Succeeds a a' → Rel w' a' → P w' a')
    (h : (cluster n C).Reach crashFree w) :
    ∃ a : Ghost n C, a.Sound RaftLogEntry.term ∧ Rel w a ∧ P w a := by
  refine h.invariant (P := fun w => ∃ a : Ghost n C, a.Sound RaftLogEntry.term ∧ Rel w a ∧ P w a)
    ⟨_, sound_empty _, rel_initial, hinit⟩ ?_
  rintro w act w' hreach ⟨a, hs, hrel, hP⟩ hfree hstep
  obtain ⟨a', hs', hsucc, hrel'⟩ := hrel.next hs hreach hfree hstep
  exact ⟨a', hs', hrel', hnext w a act w' a' hreach hs hrel hP hfree hstep hs' hsucc hrel'⟩

/-! ### On arrays -/

/-- What a server knows to be committed is in its log or under its snapshot. -/
theorem Rel.le_endIndex (h : Rel w a) {k : Nat} (hk : a.Known i k) :
    k ≤ (w.nodes i).raft.endIndex := by
  have hlen := hk.le_length
  have hst := (h.nodes i).stores
  unfold endIndex
  rw [← hst.logs, ← hst.snap, List.length_drop]
  omega

theorem commitIndex_le_of_recovers (h : (cluster n C).Reach recovers w) (i : Fin n) :
    (w.nodes i).raft.commitIndex ≤ (w.nodes i).raft.endIndex := by
  obtain ⟨-, a, -, hrel⟩ := implements_reach h
  exact hrel.le_endIndex (hrel.nodes i).tracks.commit

section Timely
variable {ok : World n C → Action n C → Prop}
  (hok : ∀ w, (cluster n C).Reach ok w → (cluster n C).Reach recovers w)
  {x x' : InMemory (World n C) n C} {act : Scheduled (Action n C)}
include hok

/-- A timely run that recovers is a run of the cluster. -/
theorem reach_of_timely (h : (processes n C).Reach (timely ok) x) :
    (cluster n C).Reach ok x.state :=
  (ofCluster n C).reach_state (fun w _ i hw _ _ => commitIndex_le_of_recovers (hok w hw) i) h

/-- And so is every step that goes on from it in time. -/
theorem step_of_timely (h : (processes n C).Reach (timely ok) x)
    (htime : x.memory.InTime x.state act.waits)
    (hstep : (processes n C).step x act = some x') :
    (cluster n C).step x.state act.act = some x'.state :=
  (ofCluster n C).step_state (h.mono fun _ _ _ _ _ => trivial) htime
    (fun i _ => commitIndex_le_of_recovers (hok _ (reach_of_timely hok h)) i) hstep

/-- What follows a run in time follows it in the cluster. -/
theorem later_of_timely (h : (processes n C).Reach (timely ok) x)
    (hlater : ((processes n C).startingAt x).Reach (timely ok) x') :
    ((cluster n C).startingAt x.state).Reach ok x'.state :=
  System.Reach.map (T := (cluster n C).startingAt x.state) InMemory.state Scheduled.act rfl
    (fun _ _ _ hy hact hstep =>
      ⟨hact.1, step_of_timely hok (System.reach_startingAt h hy) hact.2 hstep⟩) hlater

/-- The same for runs that are recorded. -/
theorem record_of_timely {β : Type} (seen : World n C → Action n C → List β)
    {s : InMemory (World n C) n C × List β}
    (h : ((processes n C).record fun x act => seen x.state act.act).Reach
      (fun s act => timely ok s.1 act) s) :
    ((cluster n C).record seen).Reach (fun s act => ok s.1 act) (s.1.state, s.2) :=
  System.Reach.map_record InMemory.state Scheduled.act rfl
    (fun _ _ _ hs hact hstep => ⟨hact.1, step_of_timely hok hs hact.2 hstep⟩) h

end Timely

/-! ### State machine safety -/

/-- Commands delivered at one index, by whichever servers, are equal. -/
def DeliversAgree (w : World n C) : Prop :=
  ∀ i j m m', Event.deliver i m ∈ w.trace → Event.deliver j m' ∈ w.trace →
    m.commandValid = true → m'.commandValid = true → m.commandIndex = m'.commandIndex →
    m.command = m'.command

theorem Chosen.agree (hs : a.Sound RaftLogEntry.term) {m m' : ApplyMsg C} (h : Chosen a m)
    (h' : Chosen a m') (hv : m.commandValid = true) (hv' : m'.commandValid = true)
    (hindex : m.commandIndex = m'.commandIndex) : m.command = m'.command := by
  obtain ⟨T, k, e, hc, hk, hidx, he, hpos, hcmd⟩ := h hv
  obtain ⟨T', k', e', hc', hk', hidx', he', _, hcmd'⟩ := h' hv'
  have hsame : e.index = e'.index := by omega
  have hagree := hs.committed_agree hc hc' (e.index - 1) (Nat.zero_le _) (by omega)
  rw [he, hsame, he'] at hagree
  cases hagree
  exact hcmd.trans hcmd'.symm

/-- **State machine safety.** In a timely run that recovers from its crashes no two servers
deliver different commands at one index. -/
theorem delivers_agree_of_recovers {x : InMemory (World n C) n C}
    (h : (processes n C).Reach (timely recovers) x) : DeliversAgree x.state := by
  obtain ⟨_, a, hs, hrel⟩ := implements_reach (reach_of_timely (fun _ => id) h)
  intro i j m m' hm hm' hv hv' hindex
  exact Chosen.agree hs (hrel.events _ hm) (hrel.events _ hm') hv hv' hindex

/-- Server `i` leads term 1, server `k` restarts, and servers `i` and `j` deliver a
command. -/
def deliverTwice (i j k : Fin n) : List (Action n Nat) :=
  [.electionTimeout i, .handle 0, .ret 0, .restart k, .start i 10, .replicateLog i j 1, .handle 4,
   .ret 4, .updateCommitIndex i 1, .applyTake i, .applySend i, .applyDone i,
   .heartBeat i, .handle 5, .applyTake j, .applySend j]

theorem deliverTwice_runs :
    (((processes 3 Nat).runWhere (timely recovers) (processes 3 Nat).init
        (scheduled [] (deliverTwice 0 1 2))).map fun x =>
      decide (.deliver 0 (commandMsg ⟨10, 1, 1⟩) ∈ x.state.trace ∧
        .deliver 1 (commandMsg ⟨10, 1, 1⟩) ∈ x.state.trace)) = some true := by
  decide +kernel

theorem delivers_agree_deliverTwice : ∃ x : InMemory (World 3 Nat) 3 Nat,
    (processes 3 Nat).Reach (timely recovers) x ∧
    Event.deliver 0 (commandMsg ⟨10, 1, 1⟩) ∈ x.state.trace ∧
    Event.deliver 1 (commandMsg ⟨10, 1, 1⟩) ∈ x.state.trace ∧ DeliversAgree x.state := by
  obtain ⟨x, hreach, hev⟩ := System.exists_reach_of_runWhere deliverTwice_runs
  exact ⟨x, hreach, hev.1, hev.2,
    delivers_agree_of_recovers hreach⟩

/-- Server `j` votes for server `i` and restarts. A heartbeat of server `i` then clears
the vote, so that server `j` makes server `k` the second leader of the term; each
leader commits with the help of server `j`. -/
def twoLeaders (i j k : Fin n) : List (Action n Nat) :=
  [.electionTimeout i, .electionTimeout k, .handle 0, .ret 0,
   .restart j, .handle 4,        -- `LeaderTerm` is gone: the heartbeat clears the vote
   .handle 3, .ret 3,            -- and server `k` gets it
   .start i 10, .replicateLog i j 1, .handle 8, .ret 8, .updateCommitIndex i 1,
   .applyTake i, .applySend i,
   .start k 20, .replicateLog k j 1, .handle 9, .ret 9, .updateCommitIndex k 1,
   .applyTake k, .applySend k]

theorem twoLeaders_delivers :
    (((processes 3 Nat).run (processes 3 Nat).init (scheduled [] (twoLeaders 0 1 2))).map fun x =>
      decide (.deliver 0 (commandMsg ⟨10, 1, 1⟩) ∈ x.state.trace ∧
        .deliver 2 (commandMsg ⟨20, 1, 1⟩) ∈ x.state.trace)) = some true := by
  decide +kernel

/-- With any crash allowed, servers deliver different commands at one index. -/
theorem delivers_differ : ¬ ∀ x : InMemory (World 3 Nat) 3 Nat,
    (processes 3 Nat).Reach System.anyStep x → DeliversAgree x.state := by
  intro hall
  obtain ⟨x, hrun, hev⟩ := Option.map_eq_some_iff.mp twoLeaders_delivers
  obtain ⟨h0, h2⟩ := of_decide_eq_true hev
  have hreach : (processes 3 Nat).Reach System.anyStep x :=
    System.reach_run .init (fun _ _ => trivial) _ hrun
  exact absurd (hall x hreach 0 2 _ _ h0 h2 rfl rfl rfl) (by decide)

/-- Servers 1 and 2 share entries of term 1 that were never committed. Server 1 gets
the snapshot of term 2 up to index 1 and restarts with term 1 for it. As leader of
term 3 it then names term 1 as the predecessor of index 2, which server 2 accepts
although it has the other entry at index 1. -/
def wrongSnapshotTerm : List (Action 5 Nat) :=
  [.electionTimeout 1, .handle 2, .handle 3, .ret 2, .ret 3,
   .start 1 10, .start 1 11, .replicateLog 1 2 1, .handle 8, .handle 4,
   .electionTimeout 0, .handle 11, .handle 12, .ret 11, .ret 12,
   .start 0 20, .replicateLog 0 3 2, .replicateLog 0 4 2, .handle 17, .handle 18, .ret 17, .ret 18,
   .updateCommitIndex 0 2, .applyTake 0, .applySend 0, .snapshot 0 1 [],
   .handle 13, .replicateLog 0 1 2, .handle 19, .ret 19,
   .restart 1,                   -- right after `InstallSnapshot`
   .start 0 21, .start 0 22, .replicateLog 0 1 2, .handle 20,
   .electionTimeout 1, .handle 23, .handle 24, .ret 23, .ret 24,
   .handle 26, .start 1 30, .replicateLog 1 2 3, .handle 29, .ret 29,
   .replicateLog 1 2 3, .handle 30, .applyTake 2, .applySend 2]

theorem wrongSnapshotTerm_delivers :
    (((processes 5 Nat).runWhere (timely clearsOwnVotes) (processes 5 Nat).init
        (scheduled [] wrongSnapshotTerm)).map fun x =>
      decide (.deliver 0 (commandMsg ⟨20, 2, 1⟩) ∈ x.state.trace ∧
        .deliver 2 (commandMsg ⟨10, 1, 1⟩) ∈ x.state.trace)) = some true := by
  decide +kernel

/-- Keeping the votes is not enough. -/
theorem delivers_differ_of_snapshot : ¬ ∀ x : InMemory (World 5 Nat) 5 Nat,
    (processes 5 Nat).Reach (timely clearsOwnVotes) x → DeliversAgree x.state := by
  intro hall
  obtain ⟨x, hreach, h0, h2⟩ := System.exists_reach_of_runWhere wrongSnapshotTerm_delivers
  exact absurd (hall x hreach 0 2 _ _ h0 h2 rfl rfl rfl) (by decide)

/-- Servers `c` and `d` agree on the entry at index 2 but not on the one before it. Server `c` leads
term 3, commits its log with the help of server `d`, and both deliver it. -/
def spread (a b c d e f : Fin n) : List (Scheduled (Action n Nat)) := List.flatten
  [overwritten a b c d, scheduled []
    [.handle 21, .electionTimeout c, .handle 29, .handle 30, .handle 31, .ret 29, .ret 30, .ret 31,
     .start c 30, .handle 35, .ret 35, .handle 36, .ret 36, .handle 38, .replicateLog c e 3,
     .replicateLog c f 3, .replicateLog c d 3, .handle 39, .handle 40, .handle 41, .ret 39,
     .ret 40, .ret 41, .updateCommitIndex c 3, .applyTake c, .applySend c, .heartBeat c,
     .handle 47, .applyTake d, .applySend d]]

theorem spread_delivers :
    (((processes 7 Nat).runWhere (anytime recovers) (processes 7 Nat).init
        (spread 0 1 2 6 3 4)).map fun x =>
      decide (.deliver 2 (commandMsg ⟨10, 1, 1⟩) ∈ x.state.trace ∧
        .deliver 6 (commandMsg ⟨20, 2, 1⟩) ∈ x.state.trace)) = some true := by
  decide +kernel

/-- Nor is it enough that nothing is lost in a crash. -/
theorem delivers_differ_of_overwritten : ¬ ∀ x : InMemory (World 7 Nat) 7 Nat,
    (processes 7 Nat).Reach (anytime recovers) x → DeliversAgree x.state := by
  intro hall
  obtain ⟨x, hreach, h2, h6⟩ := System.exists_reach_of_runWhere spread_delivers
  exact absurd (hall x hreach 2 6 _ _ h2 h6 rfl rfl rfl) (by decide)

/-! ### Leader completeness -/

/-- The server has the entry at its index, in its log or under its snapshot. -/
def HasEntry (rf : Raft n C) (e : RaftLogEntry C) : Prop :=
  e.index ≤ rf.snapshotLastIncludedIndex ∨
    rf.logs[e.index - rf.snapshotLastIncludedIndex - 1]? = some e

instance [DecidableEq C] (rf : Raft n C) (e : RaftLogEntry C) : Decidable (HasEntry rf e) :=
  inferInstanceAs (Decidable (_ ∨ _))

/-- Whoever leads a later term than the one an entry was committed in has the entry. -/
def LeadersComplete (w : World n C) : Prop :=
  ∀ i T commitIndex logs e, Event.commit i T commitIndex logs ∈ w.trace → e ∈ logs →
    e.index ≤ commitIndex → ∀ j T', Event.lead j T' ∈ w.trace → T < T' →
    HasEntry (w.nodes j).raft e

theorem Rel.hasEntry (h : Rel w a) {j : Fin n} {e : RaftLogEntry C} (hpos : 0 < e.index)
    (he : (a.voter j).log[e.index - 1]? = some e) : HasEntry (w.nodes j).raft e := by
  by_cases hle : e.index ≤ (w.nodes j).raft.snapshotLastIncludedIndex
  · exact .inl hle
  · refine .inr ?_
    rw [h.logs_getElem?, show (w.nodes j).raft.snapshotLastIncludedIndex +
      (e.index - (w.nodes j).raft.snapshotLastIncludedIndex - 1) = e.index - 1 by omega]
    exact he

theorem Implements.leadersComplete (h : Implements w) : LeadersComplete w := by
  obtain ⟨_, a, hs, hrel⟩ := h
  intro i T commitIndex logs e hcommit he hle j T' hlead hlt
  obtain ⟨Tc, k, hc, hTc, hk, hpos, hentry⟩ := hrel.events _ hcommit e he hle
  have hled : a.leader T' = some j := hrel.events _ hlead
  -- the voter keeps what was committed before it was elected
  obtain ⟨_, hagree, _⟩ := (hs.voters j).keep Tc k hc.1 hc.choosable (.inr ⟨T', by omega, hled⟩)
  refine hrel.hasEntry hpos ?_
  rw [hagree _ (Nat.zero_le _) (by omega)]
  exact hentry

/-- **Leader completeness** of every timely run without a crash. -/
theorem leaders_complete_of_crashFree {x : InMemory (World n C) n C}
    (h : (processes n C).Reach (timely crashFree) x) : LeadersComplete x.state :=
  (implements_reach (recovers_of_crashFree
    (reach_of_timely (fun _ => recovers_of_crashFree) h))).leadersComplete

/-- Server `i` commits an entry in term 1, and server `j` leads term 2. -/
def nextLeader (i j : Fin n) : List (Action n Nat) :=
  [.electionTimeout i, .handle 0, .ret 0, .start i 10, .replicateLog i j 1, .handle 4, .ret 4,
   .updateCommitIndex i 1, .electionTimeout j, .handle 6, .ret 6]

theorem nextLeader_runs :
    (((processes 3 Nat).runWhere (timely crashFree) (processes 3 Nat).init
        (scheduled [] (nextLeader 0 1))).map fun x =>
      decide (.commit 0 1 1 [⟨10, 1, 1⟩] ∈ x.state.trace ∧ .lead 1 2 ∈ x.state.trace)) =
      some true := by
  decide +kernel

theorem leaders_complete_nextLeader : ∃ x : InMemory (World 3 Nat) 3 Nat,
    (processes 3 Nat).Reach (timely crashFree) x ∧
    Event.commit 0 1 1 [⟨10, 1, 1⟩] ∈ x.state.trace ∧ Event.lead 1 2 ∈ x.state.trace ∧
    HasEntry (x.state.nodes 1).raft ⟨10, 1, 1⟩ := by
  obtain ⟨x, hreach, hcommit, hlead⟩ := System.exists_reach_of_runWhere nextLeader_runs
  exact ⟨x, hreach, hcommit, hlead, leaders_complete_of_crashFree hreach 0 1 1 _ _ hcommit
    List.mem_cons_self (Nat.le_refl _) 1 2 hlead (by decide)⟩

/-- Server 6 leads term 4 with an entry that is not the one committed. -/
theorem spread_leads :
    (((processes 7 Nat).runWhere (anytime crashFree) (processes 7 Nat).init
        (List.flatten [spread 0 1 2 6 3 4, scheduled []
          [.electionTimeout 6, .handle 51, .handle 52, .handle 53, .ret 51, .ret 52, .ret 53]])).map
      fun x => decide (.commit 2 3 3 [⟨10, 1, 1⟩, ⟨11, 1, 2⟩, ⟨30, 3, 3⟩] ∈ x.state.trace ∧
        .lead 6 4 ∈ x.state.trace ∧ ¬ HasEntry (x.state.nodes 6).raft ⟨10, 1, 1⟩)) =
      some true := by
  decide +kernel

/-- With requests encoded late, a leader can lack an entry that was committed. -/
theorem leaders_incomplete : ¬ ∀ x : InMemory (World 7 Nat) 7 Nat,
    (processes 7 Nat).Reach (anytime crashFree) x → LeadersComplete x.state := by
  intro hall
  obtain ⟨x, hreach, hcommit, hlead, hnot⟩ := System.exists_reach_of_runWhere spread_leads
  exact hnot (hall x hreach 2 3 3 _ _ hcommit List.mem_cons_self (by decide) 6 4 hlead (by decide))

end RaftLabs.Raft
