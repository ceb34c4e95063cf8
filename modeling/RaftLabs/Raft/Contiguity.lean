import RaftLabs.Raft.Memory
import RaftLabs.Raft.ServerSteps

/-! Indices and positions.

Entries carry their index, but the code finds them by position: the entry at position `k` of
`Logs` is taken to have index `SnapshotLastIncludedIndex + 1 + k`, in memory, on disk and in the
entries of a request. Nothing checks this. It holds in every timely run, whoever crashes and
whenever: a method that moves the log moves the snapshot index with it, and what is saved is a pair
that belongs together. A request that is encoded late can have a gap, and then so has the log of
the server that accepts it. -/
namespace RaftLabs.Raft
open Lib World
variable {n : Nat} {C : Type} {w w' : World n C} {i j : Fin n} {act : Action n C} {rf rf' : Raft n C}

/-! ### Contiguous lists -/

theorem Contiguous.append {snap : Nat} {logs logs' : List (RaftLogEntry C)}
    (h : Contiguous snap logs) (h' : Contiguous (snap + logs.length) logs') :
    Contiguous snap (logs ++ logs') := by
  intro p e he
  rcases Nat.lt_or_ge p logs.length with hlt | hge
  · rw [List.getElem?_append_left hlt] at he
    exact h p e he
  · rw [List.getElem?_append_right hge] at he
    have := h' _ e he
    omega

theorem Contiguous.take {snap : Nat} {logs : List (RaftLogEntry C)} (h : Contiguous snap logs)
    (k : Nat) : Contiguous snap (logs.take k) := by
  intro p e he
  rw [List.getElem?_take] at he
  split at he
  · exact h p e he
  · cases he

theorem Contiguous.drop {snap : Nat} {logs : List (RaftLogEntry C)} (h : Contiguous snap logs)
    (k : Nat) : Contiguous (snap + k) (logs.drop k) := by
  intro p e he
  rw [List.getElem?_drop] at he
  have := h _ e he
  omega

/-- The last entry of a contiguous log has the index of the last position. -/
theorem lastLogIndex_eq_endIndex (h : Contiguous rf.snapshotLastIncludedIndex rf.logs) :
    rf.lastLogIndex = rf.endIndex := by
  unfold lastLogIndex endIndex
  cases hlast : rf.logs.getLast? with
  | none => simp [List.getLast?_eq_none_iff.mp hlast]
  | some e =>
    rw [List.getLast?_eq_getElem?] at hlast
    have hindex := h _ e hlast
    have hlt := (List.getElem?_eq_some_iff.mp hlast).1
    show e.index = _
    omega

/-- Cutting the log moves the saved snapshot index along. -/
theorem contiguous_makeRaftState {s : Nat} {saved : RaftState n C}
    (h : Contiguous rf.snapshotLastIncludedIndex rf.logs)
    (hmake : makeRaftState rf (s + 1) = some saved) :
    Contiguous saved.snapshotLastIncludedIndex saved.logs := by
  obtain ⟨hlogs, hsnap, -⟩ := makeRaftState_log hmake h
  have hbase : saved.snapshotLastIncludedIndex =
      rf.snapshotLastIncludedIndex + (s - rf.snapshotLastIncludedIndex) := by omega
  rw [hlogs, hbase]
  exact h.drop _

/-! ### Servers -/

/-- Positions tell indices, in memory and on disk. -/
structure Positioned (rf : Raft n C) : Prop where
  logs : Contiguous rf.snapshotLastIncludedIndex rf.logs
  saved : Contiguous rf.savedSnapshotIndex rf.savedLogs

/-- What the persister holds, if it holds anything. -/
theorem Positioned.raftstate (h : Positioned rf) {data : RaftState n C}
    (hdata : rf.persister.raftstate = some data) :
    Contiguous data.snapshotLastIncludedIndex data.logs := by
  have hsaved := h.saved
  unfold Raft.savedSnapshotIndex Raft.savedLogs at hsaved
  rw [hdata] at hsaved
  exact hsaved

theorem positioned_make (me : Fin n) : Positioned (make me ({} : Persister n C)) :=
  ⟨contiguous_nil _, contiguous_nil _⟩

/-- A restart resumes with the saved pair. -/
theorem Positioned.restart (h : Positioned rf) (me : Fin n) : Positioned (make me rf.persister) := by
  rw [make_eq]
  exact ⟨h.saved, h.saved⟩

/-- A log that was rewritten on top of the same snapshot, saved or not. -/
theorem Positioned.rewrites (h : Positioned rf) {logs : List (RaftLogEntry C)}
    (hrw : Rewrites rf rf' logs) (hlogs : Contiguous rf.snapshotLastIncludedIndex logs) :
    Positioned rf' := by
  have hmem : Contiguous rf'.snapshotLastIncludedIndex rf'.logs := by
    rw [hrw.snap, hrw.logs]
    exact hlogs
  refine ⟨hmem, ?_⟩
  unfold Raft.savedSnapshotIndex Raft.savedLogs
  rcases hrw.saved with heq | heq <;> rw [heq]
  · exact h.saved
  · exact hmem

/-- A log that was cut at `s`, with the cut log on disk. -/
theorem positioned_of_cut {s : Nat} {saved : RaftState n C}
    (h : Contiguous rf.snapshotLastIncludedIndex rf.logs)
    (hmake : makeRaftState rf (s + 1) = some saved)
    (hpersister : rf'.persister.raftstate = some saved) (hlogs : rf'.logs = saved.logs)
    (hsnap : rf'.snapshotLastIncludedIndex = saved.snapshotLastIncludedIndex) :
    Positioned rf' := by
  have hsaved := contiguous_makeRaftState h hmake
  constructor
  case logs =>
    rw [hlogs, hsnap]
    exact hsaved
  case saved =>
    unfold Raft.savedSnapshotIndex Raft.savedLogs
    rw [hpersister]
    exact hsaved

/-- Every method keeps positions and indices together, provided the requests do. -/
theorem LogStep.positioned (h : LogStep w i act rf') (hpos : Positioned (w.nodes i).raft)
    (hrequests : ∀ c ∈ w.calls, ∀ args, c.args = .appendEntries args →
      Contiguous args.prevLogIndex args.entries) : Positioned rf' := by
  cases h with
  | kept hrw => exact hpos.rewrites hrw hpos.logs
  | @merged k c args rf' m hk hdst hargs hterm hm hlo hhi hrw =>
    refine hpos.rewrites hrw ((hpos.logs.take _).append ?_)
    have hentries := (hrequests c (List.mem_of_getElem? hk) args hargs).drop m
    -- the part that is kept ends where the rest of the request begins
    have hend : (w.nodes i).raft.snapshotLastIncludedIndex + ((w.nodes i).raft.logs.take
        (args.prevLogIndex + m - (w.nodes i).raft.snapshotLastIncludedIndex)).length =
          args.prevLogIndex + m := by
      rw [List.length_take]
      simp only [endIndex] at hhi
      omega
    rw [hend]
    exact hentries
  | added hrw =>
    refine hpos.rewrites hrw (hpos.logs.append ?_)
    rw [contiguous_cons]
    exact ⟨congrArg (· + 1) (lastLogIndex_eq_endIndex hpos.logs), contiguous_nil _⟩
  | @compacted index data saved hindex hge hmake =>
    obtain ⟨-, hsnap, -⟩ := makeRaftState_log hmake hpos.logs
    refine positioned_of_cut hpos.logs hmake rfl rfl ?_
    show max saved.snapshotLastIncludedIndex index = _
    omega
  | @installed k c args saved hk hdst hargs hinst hmake =>
    have hacc := acceptLeader_rewrites (w.nodes i).raft args.term
    have hcont := (hpos.rewrites hacc hpos.logs).logs
    -- memory takes the index of the request, the disk what `makeRaftState` computed
    obtain ⟨-, hsnap, -⟩ := makeRaftState_log hmake hcont
    refine positioned_of_cut hcont hmake rfl rfl ?_
    show args.lastIncludedIndex = _
    rw [hsnap, hacc.snap, Nat.max_eq_right (Nat.le_of_lt hinst.2.1)]

theorem ServerStep.positioned {node : Node n C} {msgs : List (ApplyMsg C)}
    (h : ServerStep w i act node msgs) (hpos : Positioned (w.nodes i).raft)
    (hrequests : ∀ c ∈ w.calls, ∀ args, c.args = .appendEntries args →
      Contiguous args.prevLogIndex args.entries) : Positioned node.raft := by
  rcases h.raft_cases with hmethod | ⟨msg, applied, heq⟩ | ⟨-, heq⟩
  · exact hmethod.logStep.positioned hpos hrequests
  · rw [heq]
    exact ⟨hpos.logs, hpos.saved⟩
  · rw [heq]
    exact hpos.restart i

/-! ### Where calls come from -/

/-- What a server in this state may ask server `j`. -/
inductive Asks (rf : Raft n C) (j : Fin n) : Args n C → Prop where
  | vote (args : RequestVoteArgs n) : Asks rf j (.requestVote args)
  | heartBeat {args : AppendEntriesArgs n C} (h : heartBeatArgs rf j = some args) :
      Asks rf j (.appendEntries args)
  | entries {args : AppendEntriesArgs n C} (h : replicateLog rf j = some (.entries args)) :
      Asks rf j (.appendEntries args)
  | snapshot {args : InstallSnapshotArg n} (h : replicateLog rf j = some (.snapshot args)) :
      Asks rf j (.installSnapshot args)

/-- The call was there before, or its caller asks in the state it has now. -/
def Originates (w w' : World n C) (c : Call n C) : Prop :=
  (∃ c₀ ∈ w.calls, c₀.src = c.src ∧ c₀.dst = c.dst ∧ c₀.args = c.args) ∨
    Asks (w'.nodes c.src).raft c.dst c.args

theorem originates_of_mem {c : Call n C} (hc : c ∈ w.calls) : Originates w w' c :=
  .inl ⟨c, hc, rfl, rfl, rfl⟩

theorem originates_of_set {k : Nat} {c d : Call n C} (hk : w.calls[k]? = some c)
    {progress : Progress} (hd : d ∈ w.calls.set k { c with progress := progress }) :
    Originates w w' d := by
  rcases List.mem_or_eq_of_mem_set hd with hmem | rfl
  · exact originates_of_mem hmem
  · exact .inl ⟨c, List.mem_of_getElem? hk, rfl, rfl, rfl⟩

/-- A round of heartbeats adds heartbeats. -/
theorem mem_calls_sendHeartBeat {c : Call n C} (hc : c ∈ (w.sendHeartBeat i).calls) :
    c ∈ w.calls ∨ Asks ((w.sendHeartBeat i).nodes c.src).raft c.dst c.args := by
  rcases sendHeartBeat_cases w i with heq | ⟨calls, heq, hcalls⟩ <;> rw [heq] at hc ⊢
  · exact .inl hc
  · refine (List.mem_append.mp hc).imp_right fun hnew => ?_
    obtain ⟨j, args, -, hargs, rfl⟩ := hcalls c hnew
    exact .heartBeat hargs

/-- **Every call was made by its caller.** -/
theorem originates_of_stepped (h : Stepped w act w') {c : Call n C} (hc : c ∈ w'.calls) :
    Originates w w' c := by
  cases h with
  | idle => exact originates_of_mem hc
  | panic => exact originates_of_mem hc
  | election i =>
    rcases List.mem_append.mp hc with hold | hnew
    · exact originates_of_mem hold
    · obtain ⟨j, -, rfl⟩ := List.mem_map.mp hnew
      exact .inr (.vote _)
  | heartBeat i =>
    rcases mem_calls_sendHeartBeat hc with hold | hnew
    · exact originates_of_mem hold
    · exact .inr hnew
  | replicateSnapshot i j _ _ args hrep =>
    rcases List.mem_append.mp hc with hold | hnew
    · exact originates_of_mem hold
    · rw [List.mem_singleton.mp hnew]
      exact .inr (.snapshot hrep)
  | replicateEntries i j _ _ args hrep =>
    rcases List.mem_append.mp hc with hold | hnew
    · exact originates_of_mem hold
    · rw [List.mem_singleton.mp hnew]
      exact .inr (.entries hrep)
  | commit => exact originates_of_mem hc
  | requestVote k d args hk => exact originates_of_set hk hc
  | appendEntries k d args hk => exact originates_of_set hk hc
  | installSnapshot k d args hk => exact originates_of_set hk hc
  | lose k d hk => exact originates_of_set hk hc
  | returned k d reply hk => exact originates_of_set hk hc
  | returnedPanic k d reply hk => exact originates_of_set hk hc
  | voteCounted k d args reply hk => exact originates_of_set hk hc
  | elected k d args reply hk =>
    rcases mem_calls_sendHeartBeat hc with hold | hnew
    · exact originates_of_set hk hold
    · exact .inr hnew
  | voteRefused k d args reply hk => exact originates_of_set hk hc
  | appendReturned k d args reply rf hk => exact originates_of_set hk hc
  | installReturned k d args reply hk => exact originates_of_set hk hc
  | start => exact originates_of_mem hc
  | snapshot => exact originates_of_mem hc
  | applyTake => exact originates_of_mem hc
  | applySend => exact originates_of_mem hc
  | applyDone => exact originates_of_mem hc
  | restart => exact originates_of_mem hc

/-! ### Requests -/

/-- The entries that `replicateLog` sends follow the predecessor it names. -/
theorem Replicates.contiguous {args : AppendEntriesArgs n C} (hrep : Replicates rf j args)
    (h : Contiguous rf.snapshotLastIncludedIndex rf.logs) :
    Contiguous args.prevLogIndex args.entries := by
  have hbase := Nat.add_sub_of_le hrep.snap
  rw [hrep.entries]
  nth_rewrite 1 [← hbase]
  exact h.drop _

theorem Asks.contiguous {asked : Args n C} (h : Asks rf j asked)
    (hcont : Contiguous rf.snapshotLastIncludedIndex rf.logs) {args : AppendEntriesArgs n C}
    (hargs : asked = .appendEntries args) : Contiguous args.prevLogIndex args.entries := by
  cases h with
  | vote => cases hargs
  | heartBeat hbeat =>
    cases hargs
    obtain ⟨_, _, -, rfl⟩ := heartBeatArgs_cases hbeat
    exact contiguous_nil _
  | entries hrep =>
    cases hargs
    exact (replicates_of_replicateLog hcont hrep).contiguous hcont
  | snapshot => cases hargs

/-! ### Every run -/

/-- Positions tell indices everywhere. -/
structure AllPositioned (w : World n C) : Prop where
  servers : ∀ i, Positioned (w.nodes i).raft
  requests : ∀ c ∈ w.calls, ∀ args, c.args = .appendEntries args →
    Contiguous args.prevLogIndex args.entries

theorem allPositioned_initial : AllPositioned (World.initial n C) where
  servers := positioned_make
  requests := nofun

theorem AllPositioned.step (h : AllPositioned w) (hstep : (cluster n C).step w act = some w') :
    AllPositioned w' := by
  have hservers : ∀ i, Positioned (w'.nodes i).raft := by
    intro i
    obtain ⟨msgs, hserver, -⟩ := serverStep_of_step hstep i
    exact hserver.positioned (h.servers i) h.requests
  refine ⟨hservers, fun c hc args hargs => ?_⟩
  rcases originates_of_stepped (stepped hstep) hc with ⟨c₀, hc₀, -, -, hsame⟩ | hasks
  · exact h.requests c₀ hc₀ args (hsame.trans hargs)
  · exact hasks.contiguous (hservers c.src).logs hargs

theorem allPositioned (h : (cluster n C).Reach System.anyStep w) : AllPositioned w :=
  h.invariant allPositioned_initial fun _ _ _ _ hinv _ hstep => hinv.step hstep

/-- `applyLog` moves nothing, whatever it reads. -/
theorem AllPositioned.applyTakeFrom (h : AllPositioned w) (i : Fin n)
    (slots : List (Option (RaftLogEntry C))) : AllPositioned (w.applyTakeFrom i slots) := by
  have hset : ∀ node : Node n C, Positioned node.raft →
      ∀ j, Positioned ((w.setNode i node).nodes j).raft := fun _ hnode =>
    forall_setNode (P := fun _ node => Positioned node.raft) h.servers hnode
  have hserver := h.servers i
  rcases w.applyTakeFrom_cases i slots with heq | ⟨applying, heq⟩ <;> rw [heq]
  · exact ⟨hset _ hserver, h.requests⟩
  · exact ⟨hset _ ⟨hserver.logs, hserver.saved⟩, h.requests⟩

/-- A step on arrays, where every request is encoded in time. -/
theorem AllPositioned.inMemory {x x' : InMemory (World n C) n C} {a : Scheduled (Action n C)}
    (h : AllPositioned x.state) (htime : x.memory.InTime x.state a.waits)
    (hstep : (processes n C).step x a = some x') : AllPositioned x'.state := by
  have hcases := processes_step hstep
  rw [htime.encode_eq] at hcases
  obtain ⟨w', hw', heq | ⟨i, slots, heq⟩⟩ := hcases
  · exact heq ▸ h.step hw'
  · exact heq ▸ h.applyTakeFrom i slots

/-- **The index of an entry is its position.** In every run that encodes its requests in time, with
crashes and restarts at any point, this holds of the log of every server, of what every persister
holds and of every `AppendEntries` request, as it is made and as it is sent. -/
theorem logs_contiguous {x : InMemory (World n C) n C}
    (h : (processes n C).Reach (timely System.anyStep) x) :
    (∀ i, Contiguous (x.state.nodes i).raft.snapshotLastIncludedIndex
      (x.state.nodes i).raft.logs) ∧
    (∀ i data, (x.state.nodes i).raft.persister.raftstate = some data →
      Contiguous data.snapshotLastIncludedIndex data.logs) ∧
    ∀ c ∈ x.state.calls, ∀ args, c.args = .appendEntries args →
      Contiguous args.prevLogIndex args.entries := by
  have hinv : AllPositioned x.state :=
    h.invariant (P := fun x => AllPositioned x.state) allPositioned_initial
      fun _ _ _ _ hx hok hstep => hx.inMemory hok.2 hstep
  exact ⟨fun i => (hinv.servers i).logs, fun i data => (hinv.servers i).raftstate, hinv.requests⟩

/-- Server `i` leads term 1, gets two entries to server `j`, commits and applies both, cuts its
log at the first and crashes; server `j` restarts as well. -/
def cutAndRestart (i j : Fin n) : List (Action n Nat) :=
  [.electionTimeout i, .handle 0, .ret 0, .start i 10, .start i 11, .replicateLog i j 1, .handle 4,
   .ret 4, .updateCommitIndex i 1, .applyTake i, .applySend i, .snapshot i 1 [], .restart i,
   .restart j]

theorem cutAndRestart_runs :
    (((processes 3 Nat).runWhere (timely System.anyStep) (processes 3 Nat).init
        (scheduled [] (cutAndRestart 0 1))).map fun x =>
      decide ((x.state.nodes 0).raft.snapshotLastIncludedIndex = 1 ∧
        (x.state.nodes 0).raft.logs = [⟨11, 1, 2⟩] ∧
        (x.state.nodes 1).raft.logs = [⟨10, 1, 1⟩, ⟨11, 1, 2⟩])) = some true := by
  decide +kernel

theorem logs_contiguous_cutAndRestart : ∃ x : InMemory (World 3 Nat) 3 Nat,
    (processes 3 Nat).Reach (timely System.anyStep) x ∧
    (x.state.nodes 0).raft.snapshotLastIncludedIndex = 1 ∧
    (x.state.nodes 0).raft.logs = [⟨11, 1, 2⟩] ∧
    (∀ i, Contiguous (x.state.nodes i).raft.snapshotLastIncludedIndex
      (x.state.nodes i).raft.logs) ∧
    (∀ i data, (x.state.nodes i).raft.persister.raftstate = some data →
      Contiguous data.snapshotLastIncludedIndex data.logs) ∧
    ∀ c ∈ x.state.calls, ∀ args, c.args = .appendEntries args →
      Contiguous args.prevLogIndex args.entries := by
  obtain ⟨x, hreach, hsnap, hlogs, -⟩ := System.exists_reach_of_runWhere cutAndRestart_runs
  exact ⟨x, hreach, hsnap, hlogs, logs_contiguous hreach⟩

/-- A request with a gap, and the log it leaves. -/
theorem shifted_logs :
    (((processes 7 Nat).runWhere (anytime crashFree) (processes 7 Nat).init
        (shifted 0 1 2 3 4 5)).map fun x =>
      decide ((x.state.nodes 4).raft.snapshotLastIncludedIndex = 0 ∧
        (x.state.nodes 4).raft.logs = [⟨20, 2, 1⟩, ⟨22, 2, 3⟩, ⟨23, 2, 4⟩] ∧
        x.state.entries? 12 = some [⟨20, 2, 1⟩, ⟨22, 2, 3⟩, ⟨23, 2, 4⟩])) = some true := by
  decide +kernel

/-- With requests encoded late, logs can have gaps, even without any crash. -/
theorem logs_gapped : ¬ ∀ x : InMemory (World 7 Nat) 7 Nat,
    (processes 7 Nat).Reach (anytime crashFree) x →
      ∀ i, Contiguous (x.state.nodes i).raft.snapshotLastIncludedIndex
        (x.state.nodes i).raft.logs := by
  intro hall
  obtain ⟨x, hreach, hsnap, hlogs, -⟩ := System.exists_reach_of_runWhere shifted_logs
  have hcont := hall x hreach 4
  rw [hlogs, hsnap] at hcont
  exact absurd (hcont 1 _ rfl) (by decide)

end RaftLabs.Raft
