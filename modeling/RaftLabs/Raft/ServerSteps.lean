import RaftLabs.Raft.Elections
import RaftLabs.Raft.Logs

/-! One server's part in a step of the cluster.

An invariant of single servers does not care which call or goroutine made a server act. Here
the outcomes of `Stepped` are sorted by what becomes of one server: one of its methods has
run, or its `applyLog` has moved on, or it has restarted. -/
namespace RaftLabs.Raft
open Lib World
variable {n : Nat} {C : Type} {w w' : World n C} {i j : Fin n} {act : Action n C}

/-- What a method leaves of server `i`, with the request it handled. -/
inductive MethodStep (w : World n C) (i : Fin n) : Action n C → Raft n C → Prop where
  | same {act : Action n C} : MethodStep w i act (w.nodes i).raft
  | election : MethodStep w i (.electionTimeout i) (prepareElection (w.nodes i).raft).1
  | volatile {act : Action n C} (state : Role) (commit : Nat) (next matched : Fin n → Nat)
      (hcommit : (w.nodes i).raft.commitIndex ≤ commit) :
      MethodStep w i act { (w.nodes i).raft with
        state := state, commitIndex := commit, nextIndex := next, matchIndex := matched }
  | stepDown {act : Action n C} {term : Nat} (hlt : (w.nodes i).raft.currentTerm < term) :
      MethodStep w i act ((w.nodes i).raft.stepDown term).persist
  | requestVote {k : Nat} {c : Call n C} {args : RequestVoteArgs n} (hk : w.calls[k]? = some c)
      (hdst : c.dst = i) (hargs : c.args = .requestVote args) :
      MethodStep w i (.handle k) ((w.nodes i).raft.requestVote args).1
  | appendEntries {k : Nat} {c : Call n C} {args : AppendEntriesArgs n C} {rf : Raft n C}
      {reply : AppendEntriesReply} (hk : w.calls[k]? = some c) (hdst : c.dst = i)
      (hargs : c.args = .appendEntries args)
      (h : (w.nodes i).raft.appendEntries args = some (rf, reply)) : MethodStep w i (.handle k) rf
  | installSnapshot {k : Nat} {c : Call n C} {args : InstallSnapshotArg n} {rf : Raft n C}
      {reply : InstallSnapshotReply} (hk : w.calls[k]? = some c) (hdst : c.dst = i)
      (hargs : c.args = .installSnapshot args)
      (h : (w.nodes i).raft.installSnapshot args = some (rf, reply)) :
      MethodStep w i (.handle k) rf
  | start (command : C) :
      MethodStep w i (.start i command) ((w.nodes i).raft.start command).1
  | snapshot {index : Nat} {data : Bytes} {rf : Raft n C}
      (hindex : index ≤ (w.nodes i).delivered)
      (h : (w.nodes i).raft.snapshot index data = some rf) :
      MethodStep w i (.snapshot i index data) rf

/-- What becomes of server `i`, and the messages its service receives. -/
inductive ServerStep (w : World n C) (i : Fin n) :
    Action n C → Node n C → List (ApplyMsg C) → Prop where
  | method {act : Action n C} {node : Node n C} (h : MethodStep w i act node.raft)
      (happlying : node.applying = (w.nodes i).applying)
      (hdelivered : node.delivered = (w.nodes i).delivered) : ServerStep w i act node []
  | applyTake {rf : Raft n C} {msgs : List (ApplyMsg C)} {last : Option Nat}
      (hidle : (w.nodes i).applying = none)
      (h : (w.nodes i).raft.applyLog = some (rf, msgs, last)) :
      ServerStep w i (.applyTake i)
        { w.nodes i with raft := rf, applying := some (msgs, last) } []
  | applySend {msg : ApplyMsg C} {rest : List (ApplyMsg C)} {last : Option Nat}
      (h : (w.nodes i).applying = some (msg :: rest, last)) :
      ServerStep w i (.applySend i)
        { w.nodes i with
          applying := some (rest, last)
          delivered := max (w.nodes i).delivered (max msg.commandIndex msg.snapshotIndex) } [msg]
  | applyDone {last : Option Nat} (h : (w.nodes i).applying = some ([], last)) :
      ServerStep w i (.applyDone i)
        { w.nodes i with raft := (w.nodes i).raft.applied last, applying := none } []
  | restart : ServerStep w i (.restart i)
      (.boot i (w.nodes i).raft.persister ((w.nodes i).epoch + 1)) []

/-- The messages that the service of server `i` has received. -/
def deliveries (i : Fin n) (trace : List (Event n C)) : List (ApplyMsg C) :=
  trace.filterMap fun
    | .deliver j msg => if j = i then some msg else none
    | _ => none

theorem deliveries_append (i : Fin n) (trace events : List (Event n C)) :
    deliveries i (trace ++ events) = deliveries i trace ++ deliveries i events :=
  List.filterMap_append

/-- What a step does to every server. -/
def ServersStep (w : World n C) (act : Action n C) (w' : World n C) : Prop :=
  ∀ i, ∃ msgs, ServerStep w i act (w'.nodes i) msgs ∧
    deliveries i w'.trace = deliveries i w.trace ++ msgs

theorem ServerStep.same (i : Fin n) : ServerStep w i act (w.nodes i) [] :=
  .method .same rfl rfl

/-- Nobody acts. -/
theorem ServersStep.idle (hnodes : w'.nodes = w.nodes)
    (htrace : ∀ i, deliveries i w'.trace = deliveries i w.trace) : ServersStep w act w' := by
  intro i
  rw [hnodes]
  exact ⟨[], .same i, by rw [htrace, List.append_nil]⟩

/-- One server acts. -/
theorem ServersStep.one {node : Node n C} {msgs : List (ApplyMsg C)} (j : Fin n)
    (hnodes : w'.nodes = (w.setNode j node).nodes) (h : ServerStep w j act node msgs)
    (hself : deliveries j w'.trace = deliveries j w.trace ++ msgs)
    (htrace : ∀ i ≠ j, deliveries i w'.trace = deliveries i w.trace) : ServersStep w act w' := by
  intro i
  rw [hnodes]
  by_cases hi : i = j
  · subst hi
    rw [setNode_self]
    exact ⟨msgs, h, hself⟩
  · rw [setNode_ne w node hi]
    exact ⟨[], .same i, by rw [htrace i hi, List.append_nil]⟩

/-- One server runs a method. -/
theorem ServersStep.method {node : Node n C} (j : Fin n)
    (hnodes : w'.nodes = (w.setNode j node).nodes) (h : MethodStep w j act node.raft)
    (happlying : node.applying = (w.nodes j).applying)
    (hdelivered : node.delivered = (w.nodes j).delivered)
    (htrace : ∀ i, deliveries i w'.trace = deliveries i w.trace) : ServersStep w act w' :=
  .one j hnodes (.method h happlying hdelivered) (by rw [htrace, List.append_nil])
    fun i _ => htrace i

/-- Events other than deliveries are not delivered. -/
theorem deliveries_observe {event : Event n C} (h : deliveries i [event] = [])
    (trace : List (Event n C)) : deliveries i (trace ++ [event]) = deliveries i trace := by
  rw [deliveries_append, h, List.append_nil]

/-- Heartbeats leave a server as it is, or panic. -/
theorem sendHeartBeat_nodes (w : World n C) (j : Fin n) : ∃ up,
    (w.sendHeartBeat j).nodes = (w.setNode j { w.nodes j with up := up }).nodes := by
  rcases sendHeartBeat_cases w j with heq | ⟨calls, heq, -⟩ <;> rw [heq]
  · exact ⟨false, rfl⟩
  · exact ⟨(w.nodes j).up, (Function.update_eq_self j w.nodes).symm⟩

/-- The servers after an election and its first heartbeats. -/
theorem elected_nodes (w : World n C) (k : Nat) (c : Call n C) (progress : Progress) : ∃ up,
    (((w.advance k c progress).elect c.src).sendHeartBeat c.src).nodes =
      (w.setNode c.src { w.elected c.src with up := up }).nodes := by
  obtain ⟨up, hnodes⟩ := sendHeartBeat_nodes ((w.advance k c progress).elect c.src) c.src
  have helect : ((w.advance k c progress).elect c.src).nodes =
      (w.setNode c.src (w.elected c.src)).nodes := rfl
  refine ⟨up, ?_⟩
  rw [hnodes, World.setNode, helect, setNode_self]
  exact Function.update_idem _ _ _

/-- A reply to `AppendEntries` or `InstallSnapshot` makes the caller step down, or moves its
tables. -/
theorem MethodStep.appendReturned {server : Fin n} {args : AppendEntriesArgs n C}
    {reply : AppendEntriesReply} {rf : Raft n C}
    (h : (w.nodes i).raft.appendEntriesReturned server args reply = some rf) :
    MethodStep w i act rf := by
  rcases appendEntriesReturned_cases h with ⟨hlt, rfl⟩ | ⟨next, rfl⟩ | ⟨-, -, next, rfl⟩
  · exact .stepDown hlt
  · exact .volatile _ _ next _ (Nat.le_refl _)
  · exact .volatile _ _ next _ (Nat.le_refl _)

theorem MethodStep.installReturned (server : Fin n) (args : InstallSnapshotArg n)
    (reply : InstallSnapshotReply) :
    MethodStep w i act ((w.nodes i).raft.installSnapshotReturned server args reply) := by
  rcases installSnapshotReturned_cases (w.nodes i).raft server args reply with
    ⟨hlt, heq⟩ | heq | ⟨-, -, next, heq⟩ <;> rw [heq]
  · exact .stepDown hlt
  · exact .same
  · exact .volatile _ _ next _ (Nat.le_refl _)

/-- **Every step is one server's.** -/
theorem serversStep_of_stepped (h : Stepped w act w') : ServersStep w act w' := by
  cases h with
  | idle => exact .idle rfl fun _ => rfl
  | panic j => exact .method j rfl .same rfl rfl fun _ => rfl
  | election j _ =>
    exact .method j rfl .election rfl rfl fun _ => deliveries_observe rfl w.trace
  | heartBeat j _ =>
    obtain ⟨up, hnodes⟩ := sendHeartBeat_nodes w j
    exact .method j hnodes .same rfl rfl fun i => by rw [sendHeartBeat_trace]
  | replicateSnapshot => exact .idle rfl fun _ => rfl
  | replicateEntries => exact .idle rfl fun _ => rfl
  | commit j _ index _ =>
    exact .method j rfl (.volatile _ _ _ _ (Nat.le_max_left _ _)) rfl rfl
      fun _ => deliveries_observe rfl w.trace
  | requestVote k c args hk hargs _ =>
    refine .method c.dst rfl (.requestVote hk rfl hargs) rfl rfl fun i => ?_
    show deliveries i (w.trace ++ if _ then _ else _) = _
    split
    · exact deliveries_observe rfl w.trace
    · rw [List.append_nil]
  | appendEntries k c args hk hargs _ rf reply happ =>
    exact .method c.dst rfl (.appendEntries hk rfl hargs happ) rfl rfl fun _ => rfl
  | installSnapshot k c args hk hargs _ rf reply hins =>
    exact .method c.dst rfl (.installSnapshot hk rfl hargs hins) rfl rfl fun _ => rfl
  | lose => exact .idle rfl fun _ => rfl
  | returned => exact .idle rfl fun _ => rfl
  | returnedPanic k c => exact .method c.src rfl .same rfl rfl fun _ => rfl
  | voteCounted k c => exact .method c.src rfl .same rfl rfl fun _ => rfl
  | elected k c args reply =>
    obtain ⟨up, hnodes⟩ := elected_nodes w k c (.returned (some (.requestVote reply)))
    refine .method c.src hnodes (.volatile _ _ _ _ (Nat.le_refl _)) rfl rfl fun i => ?_
    rw [sendHeartBeat_trace]
    exact deliveries_observe rfl w.trace
  | voteRefused k c args reply _ _ _ hlt =>
    exact .method c.src rfl (.stepDown hlt) rfl rfl fun _ => rfl
  | appendReturned k c args reply rf _ _ _ _ _ hret =>
    exact .method c.src rfl (.appendReturned hret) rfl rfl fun _ => rfl
  | installReturned k c args reply =>
    exact .method c.src rfl (.installReturned c.dst args _) rfl rfl fun _ => rfl
  | start j command => exact .method j rfl (.start command) rfl rfl fun _ => rfl
  | snapshot j index data hindex rf hsnap =>
    exact .method j rfl (.snapshot hindex hsnap) rfl rfl fun _ => rfl
  | applyTake j hidle rf msgs last htake =>
    exact .one j rfl (.applyTake hidle htake) (List.append_nil _).symm fun _ _ => rfl
  | applySend j msg rest last hsend =>
    refine .one j rfl (.applySend hsend) ?_ fun i hi => ?_
    · show deliveries j (w.trace ++ [.deliver j msg]) = _
      rw [deliveries_append]
      simp [deliveries]
    · show deliveries i (w.trace ++ [.deliver j msg]) = _
      rw [deliveries_append]
      simp [deliveries, Ne.symm hi]
  | applyDone j last hdone =>
    exact .one j rfl (.applyDone hdone) (List.append_nil _).symm fun _ _ => rfl
  | restart j => exact .one j rfl .restart (List.append_nil _).symm fun _ _ => rfl

/-- What holds of a server survives every step when the methods, `applyLog` and restarts keep it. -/
theorem serverStep_of_step (h : (cluster n C).step w act = some w') (i : Fin n) : ∃ msgs,
    ServerStep w i act (w'.nodes i) msgs ∧
      deliveries i w'.trace = deliveries i w.trace ++ msgs :=
  serversStep_of_stepped (stepped h) i

/-- `applyLog` touches two fields of the server, and a restart keeps the persister. -/
theorem ServerStep.raft_cases {node : Node n C} {msgs : List (ApplyMsg C)}
    (h : ServerStep w i act node msgs) :
    MethodStep w i act node.raft ∨
    (∃ msg applied, node.raft =
      { (w.nodes i).raft with snapshotMsg := msg, lastApplied := applied }) ∨
    (act = .restart i ∧ node.raft = make i (w.nodes i).raft.persister) := by
  cases h with
  | method hm => exact .inl hm
  | applyTake _ htake =>
    obtain ⟨_, _, heq⟩ := Option.map_eq_some_iff.mp htake
    cases heq
    exact .inr (.inl ⟨_, _, rfl⟩)
  | applySend => exact .inr (.inl ⟨_, _, rfl⟩)
  | @applyDone last => cases last <;> exact .inr (.inl ⟨_, _, rfl⟩)
  | restart => exact .inr (.inr ⟨rfl, rfl⟩)

/-! ### Conditions on requests -/

/-- When the action handles a request, `P` holds of the server and the request. -/
def World.handles (w : World n C) (P : Node n C → Args n C → Prop) : Action n C → Prop
  | .handle k => ∀ c ∈ w.calls[k]?, P (w.nodes c.dst) c.args
  | _ => True

instance (w : World n C) (P : Node n C → Args n C → Prop) [∀ node args, Decidable (P node args)] :
    (act : Action n C) → Decidable (w.handles P act)
  | .handle k => inferInstanceAs (Decidable (∀ c ∈ w.calls[k]?, P (w.nodes c.dst) c.args))
  | .electionTimeout _ | .heartBeat _ | .replicateLog _ _ _ | .updateCommitIndex _ _ | .lose _
  | .ret _ | .start _ _ | .snapshot _ _ _ | .applyTake _ | .applySend _ | .applyDone _
  | .restart _ => isTrue trivial

theorem World.handles.apply {P : Node n C → Args n C → Prop} {k : Nat} {c : Call n C}
    (h : w.handles P (.handle k)) (hk : w.calls[k]? = some c) (hdst : c.dst = i) :
    P (w.nodes i) c.args :=
  hdst ▸ h c hk

/-- A request that fails the condition was handled, or its server panicked. -/
theorem not_handles {P : Node n C → Args n C → Prop}
    (hstep : (cluster n C).step w act = some w') (h : ¬ w.handles P act) :
    ∃ k c, act = .handle k ∧ w.calls[k]? = some c ∧ w' = w.handle k c ∧
      ¬ P (w.nodes c.dst) c.args := by
  cases act with
  | handle k =>
    simp only [World.handles, not_forall] at h
    obtain ⟨c, hk, hP⟩ := h
    simp only [cluster, step, show w.calls[k]? = some c from hk] at hstep
    split at hstep
    · simp only [Option.ite_none_right_eq_some, Option.some.injEq] at hstep
      exact ⟨k, c, rfl, hk, hstep.2.symm, hP⟩
    · cases hstep
  | _ => exact absurd trivial h

/-- The server takes over the snapshot of the request. -/
def Installs (rf : Raft n C) (args : InstallSnapshotArg n) : Prop :=
  rf.currentTerm ≤ args.term ∧ rf.snapshotLastIncludedIndex < args.lastIncludedIndex ∧
    rf.snapshotMsg.snapshotIndex ≤ args.lastIncludedIndex

instance (rf : Raft n C) (args : InstallSnapshotArg n) : Decidable (Installs rf args) :=
  inferInstanceAs (Decidable (_ ∧ _ ∧ _))

/-- When the request brings a snapshot that the server takes over, `Q` holds of the two. -/
def OnInstall (Q : Node n C → InstallSnapshotArg n → Prop) (node : Node n C) : Args n C → Prop
  | .installSnapshot args => Installs node.raft args → Q node args
  | .requestVote _ | .appendEntries _ => True

instance (Q : Node n C → InstallSnapshotArg n → Prop) [∀ node args, Decidable (Q node args)]
    (node : Node n C) : (args : Args n C) → Decidable (OnInstall Q node args)
  | .installSnapshot args => inferInstanceAs (Decidable (Installs node.raft args → Q node args))
  | .requestVote _ | .appendEntries _ => isTrue trivial

theorem World.handles.install {Q : Node n C → InstallSnapshotArg n → Prop} {k : Nat} {c : Call n C}
    {args : InstallSnapshotArg n} (h : w.handles (OnInstall Q) (.handle k))
    (hk : w.calls[k]? = some c) (hdst : c.dst = i) (hargs : c.args = .installSnapshot args)
    (hinst : Installs (w.nodes i).raft args) : Q (w.nodes i) args := by
  have hreq := h.apply hk hdst
  rw [hargs] at hreq
  exact hreq hinst

/-- The server with the snapshot of the request, where `saved` is what `makeRaftState` made of
its log. -/
def installed (rf : Raft n C) (args : InstallSnapshotArg n) (saved : RaftState n C) : Raft n C :=
  { (acceptLeader rf args.term).1 with
    snapshotMsg :=
      { snapshotValid := true
        snapshot := args.data
        snapshotTerm := args.lastIncludedTerm
        snapshotIndex := args.lastIncludedIndex }
    persister := { raftstate := some saved, snapshot := args.data }
    logs := saved.logs
    snapshotLastIncludedIndex := args.lastIncludedIndex
    snapshotLastIncludedTerm := args.lastIncludedTerm
    commitIndex := max rf.commitIndex args.lastIncludedIndex
    lastApplied := max rf.lastApplied args.lastIncludedIndex }

theorem installSnapshot_of_installs {rf : Raft n C} {args : InstallSnapshotArg n}
    (h : Installs rf args) : rf.installSnapshot args =
      (makeRaftState (acceptLeader rf args.term).1 (args.lastIncludedIndex + 1)).map fun saved =>
        (installed rf args saved, { term := rf.currentTerm, success := true }) := by
  obtain ⟨hterm, hsnap, hmsg⟩ := h
  have hframe := acceptLeader_frame rf args.term
  have hnew : ¬ (args.lastIncludedIndex ≤ (acceptLeader rf args.term).1.snapshotLastIncludedIndex ∨
      args.lastIncludedIndex < (acceptLeader rf args.term).1.snapshotMsg.snapshotIndex) := by
    rw [hframe]
    exact not_or.mpr ⟨Nat.not_le.mpr hsnap, Nat.not_lt.mpr hmsg⟩
  unfold installSnapshot
  rw [if_neg (Nat.not_lt.mpr hterm)]
  dsimp only
  rw [if_neg hnew]
  unfold installed
  cases makeRaftState (acceptLeader rf args.term).1 (args.lastIncludedIndex + 1) with
  | none => rfl
  | some saved =>
    rw [hframe]
    rfl

theorem handle_installed {k : Nat} {c : Call n C} {args : InstallSnapshotArg n}
    {saved : RaftState n C} (hargs : c.args = .installSnapshot args)
    (h : Installs (w.nodes c.dst).raft args)
    (hmake : (acceptLeader (w.nodes c.dst).raft args.term).1.makeRaftState
      (args.lastIncludedIndex + 1) = some saved) :
    ((w.handle k c).nodes c.dst).raft = (w.nodes c.dst).raft.installed args saved := by
  have hins := installSnapshot_of_installs h
  rw [hmake, Option.map_some] at hins
  simp [World.handle, hargs, hins, World.setRaft, World.setNode, World.advance, World.setCall]

/-- A snapshot that fails the condition was taken over all the same. -/
theorem not_handles_install {Q : Node n C → InstallSnapshotArg n → Prop}
    (hstep : (cluster n C).step w act = some w') (h : ¬ w.handles (OnInstall Q) act) :
    ∃ j args saved, Installs (w.nodes j).raft args ∧ ¬ Q (w.nodes j) args ∧
      (acceptLeader (w.nodes j).raft args.term).1.makeRaftState (args.lastIncludedIndex + 1) =
        some saved ∧
      (w'.nodes j).raft = (w.nodes j).raft.installed args saved := by
  obtain ⟨k, c, rfl, -, rfl, hbad⟩ := not_handles hstep h
  cases hargs : c.args with
  | requestVote args => exact absurd (hargs ▸ trivial) hbad
  | appendEntries args => exact absurd (hargs ▸ trivial) hbad
  | installSnapshot args =>
    rw [hargs, OnInstall, Classical.not_imp] at hbad
    obtain ⟨saved, hmake⟩ := makeRaftState_total
      (acceptLeader (w.nodes c.dst).raft args.term).1 (args.lastIncludedIndex + 1)
    exact ⟨c.dst, args, saved, hbad.1, hbad.2, hmake, handle_installed hargs hbad.1 hmake⟩

/-- Any other request leaves the log alone. -/
theorem installSnapshot_of_not_installs {rf rf' : Raft n C} {args : InstallSnapshotArg n}
    {reply : InstallSnapshotReply} (hinst : ¬ Installs rf args)
    (h : rf.installSnapshot args = some (rf', reply)) :
    rf' = rf ∨ rf.currentTerm ≤ args.term ∧ rf' = (acceptLeader rf args.term).1.persist := by
  unfold installSnapshot at h
  split at h
  · cases h
    exact .inl rfl
  · rename_i hterm
    have hle : rf.currentTerm ≤ args.term := Nat.le_of_not_lt hterm
    dsimp only at h
    split at h
    · cases h
      exact .inr ⟨hle, rfl⟩
    · rename_i hnew
      rw [acceptLeader_frame] at hnew
      obtain ⟨hsnap, hmsg⟩ := not_or.mp hnew
      exact absurd ⟨hle, Nat.lt_of_not_le hsnap, Nat.le_of_not_lt hmsg⟩ hinst

/-! ### What becomes of the log -/

/-- The server with the log cut by `Snapshot(index, data)`. -/
def compacted (rf : Raft n C) (index : Nat) (data : Bytes) (saved : RaftState n C) : Raft n C :=
  { rf with
    persister := { raftstate := some saved, snapshot := data }
    logs := saved.logs
    snapshotLastIncludedIndex := max saved.snapshotLastIncludedIndex index
    snapshotLastIncludedTerm := saved.snapshotLastIncludedTerm
    commitIndex := max rf.commitIndex index
    lastApplied := max rf.lastApplied index }

/-- The log is `logs` now, and everything that goes with the snapshot is as it was. -/
structure Rewrites (rf rf' : Raft n C) (logs : List (RaftLogEntry C)) : Prop where
  logs : rf'.logs = logs
  snap : rf'.snapshotLastIncludedIndex = rf.snapshotLastIncludedIndex
  snapTerm : rf'.snapshotLastIncludedTerm = rf.snapshotLastIncludedTerm
  applied : rf'.lastApplied = rf.lastApplied
  snapshotMsg : rf'.snapshotMsg = rf.snapshotMsg
  bytes : rf'.persister.snapshot = rf.persister.snapshot
  saved : rf'.persister.raftstate = rf.persister.raftstate ∨
    rf'.persister.raftstate = some rf'.raftState

/-- What a method does to the log of server `i`: nothing, or it merges the entries of a request,
or adds a command, or cuts the log at a snapshot of its service or of another server. -/
inductive LogStep (w : World n C) (i : Fin n) : Action n C → Raft n C → Prop where
  | kept {act : Action n C} {rf' : Raft n C}
      (h : Rewrites (w.nodes i).raft rf' (w.nodes i).raft.logs) : LogStep w i act rf'
  | merged {k : Nat} {c : Call n C} {args : AppendEntriesArgs n C} {rf' : Raft n C} {m : Nat}
      (hk : w.calls[k]? = some c) (hdst : c.dst = i) (hargs : c.args = .appendEntries args)
      (hterm : (w.nodes i).raft.currentTerm ≤ args.term) (hm : m < args.entries.length)
      (hlo : (w.nodes i).raft.snapshotLastIncludedIndex ≤ args.prevLogIndex + m)
      (hhi : args.prevLogIndex + m ≤ (w.nodes i).raft.endIndex)
      (h : Rewrites (w.nodes i).raft rf' ((w.nodes i).raft.logs.take
        (args.prevLogIndex + m - (w.nodes i).raft.snapshotLastIncludedIndex) ++
          args.entries.drop m)) : LogStep w i (.handle k) rf'
  | added {command : C} {rf' : Raft n C} (h : Rewrites (w.nodes i).raft rf'
      ((w.nodes i).raft.logs ++
        [{ command := command
           term := (w.nodes i).raft.currentTerm
           index := (w.nodes i).raft.lastLogIndex + 1 }])) : LogStep w i (.start i command) rf'
  | compacted {index : Nat} {data : Bytes} {saved : RaftState n C}
      (hindex : index ≤ (w.nodes i).delivered)
      (hge : (w.nodes i).raft.snapshotLastIncludedIndex ≤ index)
      (hmake : (w.nodes i).raft.makeRaftState (index + 1) = some saved) :
      LogStep w i (.snapshot i index data) ((w.nodes i).raft.compacted index data saved)
  | installed {k : Nat} {c : Call n C} {args : InstallSnapshotArg n} {saved : RaftState n C}
      (hk : w.calls[k]? = some c) (hdst : c.dst = i) (hargs : c.args = .installSnapshot args)
      (hinst : Installs (w.nodes i).raft args)
      (hmake : (acceptLeader (w.nodes i).raft args.term).1.makeRaftState
        (args.lastIncludedIndex + 1) = some saved) :
      LogStep w i (.handle k) ((w.nodes i).raft.installed args saved)

section Rewrites
variable {rf rf' rf'' : Raft n C} {logs : List (RaftLogEntry C)}

theorem Rewrites.refl (rf : Raft n C) : Rewrites rf rf rf.logs :=
  ⟨rfl, rfl, rfl, rfl, rfl, rfl, .inl rfl⟩

theorem Rewrites.persist (h : Rewrites rf rf' logs) : Rewrites rf rf'.persist logs :=
  ⟨h.logs, h.snap, h.snapTerm, h.applied, h.snapshotMsg, h.bytes, .inr rfl⟩

/-- The snapshot term on disk is as good as it was. -/
theorem Rewrites.savedSnapshotTerm (h : Rewrites rf rf' logs)
    (hsaved : rf.savedSnapshotTerm = rf.snapshotLastIncludedTerm) :
    rf'.savedSnapshotTerm = rf'.snapshotLastIncludedTerm := by
  rcases h.saved with heq | heq <;> unfold Raft.savedSnapshotTerm <;> rw [heq]
  · rw [h.snapTerm]
    exact hsaved
  · rfl

theorem acceptLeader_rewrites (rf : Raft n C) (term : Nat) :
    Rewrites rf (acceptLeader rf term).1 rf.logs := by
  rw [acceptLeader_frame]
  exact ⟨rfl, rfl, rfl, rfl, rfl, rfl, .inl rfl⟩

theorem acceptLeader_persister (rf : Raft n C) (term : Nat) :
    (acceptLeader rf term).1.persister = rf.persister := by
  rw [acceptLeader_frame]

theorem requestVote_rewrites (rf : Raft n C) (args : RequestVoteArgs n) :
    Rewrites rf (rf.requestVote args).1 rf.logs := by
  rcases requestVote_shape rf args with heq | ⟨-, heq⟩ | heq | ⟨-, heq⟩ <;> rw [heq]
  · exact .refl rf
  · exact ⟨rfl, rfl, rfl, rfl, rfl, rfl, .inr rfl⟩
  · exact ⟨rfl, rfl, rfl, rfl, rfl, rfl, .inr rfl⟩
  · exact ⟨rfl, rfl, rfl, rfl, rfl, rfl, .inr rfl⟩

end Rewrites

theorem logStep_appendEntries {k : Nat} {c : Call n C} {args : AppendEntriesArgs n C}
    {rf' : Raft n C} {reply : AppendEntriesReply} (hk : w.calls[k]? = some c) (hdst : c.dst = i)
    (hargs : c.args = .appendEntries args)
    (h : (w.nodes i).raft.appendEntries args = some (rf', reply)) :
    LogStep w i (.handle k) rf' := by
  have hacc := acceptLeader_rewrites (w.nodes i).raft args.term
  rcases appendEntries_cases h with
    ⟨-, rfl, -⟩ | ⟨-, rfl, -⟩ | ⟨hle, -, -, rf₂, appended, hmerge, rfl⟩
  · exact .kept (.refl _)
  · exact .kept hacc
  · have hfinal : ∀ logs, Rewrites (w.nodes i).raft rf₂ logs → Rewrites (w.nodes i).raft
        (if (acceptLeader (w.nodes i).raft args.term).2 || appended then
          (rf₂.followCommit args.leaderCommit).persist
        else rf₂.followCommit args.leaderCommit) logs := by
      intro logs hr
      obtain ⟨commit, hcommit⟩ := followCommit_shape rf₂ args.leaderCommit
      have hr' : Rewrites (w.nodes i).raft { rf₂ with commitIndex := commit } logs :=
        ⟨hr.logs, hr.snap, hr.snapTerm, hr.applied, hr.snapshotMsg, hr.bytes, hr.saved⟩
      rw [hcommit]
      split
      · exact hr'.persist
      · exact hr'
    rcases mergeEntries_cases hmerge with
      ⟨-, rfl, -⟩ | ⟨m, -, -, -, ⟨-, -, rfl⟩ | ⟨hm, -, hlo, hhi, -, rfl⟩⟩
    · exact .kept (hfinal _ hacc)
    · exact .kept (hfinal _ ⟨hacc.logs, hacc.snap, hacc.snapTerm, hacc.applied, hacc.snapshotMsg,
        hacc.bytes, .inl (congrArg Persister.raftstate (acceptLeader_persister _ _))⟩)
    · rw [hacc.snap] at hlo hhi
      rw [hacc.logs] at hhi
      refine .merged hk hdst hargs hle hm hlo hhi (hfinal _ ⟨?_, hacc.snap, hacc.snapTerm,
        hacc.applied, hacc.snapshotMsg, hacc.bytes,
        .inl (congrArg Persister.raftstate (acceptLeader_persister _ _))⟩)
      rw [hacc.snap, hacc.logs]

theorem MethodStep.logStep {rf' : Raft n C} (h : MethodStep w i act rf') :
    LogStep w i act rf' := by
  cases h with
  | same => exact .kept (.refl _)
  | election => exact .kept ⟨rfl, rfl, rfl, rfl, rfl, rfl, .inr rfl⟩
  | volatile => exact .kept ⟨rfl, rfl, rfl, rfl, rfl, rfl, .inl rfl⟩
  | stepDown => exact .kept ⟨rfl, rfl, rfl, rfl, rfl, rfl, .inr rfl⟩
  | requestVote => exact .kept (requestVote_rewrites _ _)
  | appendEntries hk hdst hargs happ => exact logStep_appendEntries hk hdst hargs happ
  | @installSnapshot k c args rf reply hk hdst hargs hins =>
    by_cases hinst : Installs (w.nodes i).raft args
    · rw [installSnapshot_of_installs hinst, Option.map_eq_some_iff] at hins
      obtain ⟨saved, hmake, heq⟩ := hins
      cases heq
      exact .installed hk hdst hargs hinst hmake
    · rcases installSnapshot_of_not_installs hinst hins with rfl | ⟨-, rfl⟩
      · exact .kept (.refl _)
      · exact .kept (acceptLeader_rewrites _ _).persist
  | start command =>
    unfold Raft.start
    split
    · exact .kept (.refl _)
    · exact .added ⟨rfl, rfl, rfl, rfl, rfl, rfl, .inr rfl⟩
  | snapshot hindex hsnap =>
    unfold Raft.snapshot at hsnap
    split at hsnap
    · cases hsnap
      exact .kept (.refl _)
    · rename_i hold
      simp only [Option.bind_eq_bind, Option.bind_eq_some_iff, Option.pure_def,
        Option.some.injEq] at hsnap
      obtain ⟨saved, hmake, rfl⟩ := hsnap
      exact .compacted hindex (Nat.le_of_not_lt hold) hmake

end RaftLabs.Raft
