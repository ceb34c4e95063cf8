import RaftLabs.Raft.Deliveries

/-! Nothing comes from nowhere.

Every entry in a log, on a disk, in a request or on an apply channel is one that `Start` made,
and every snapshot is one that a service handed to `Snapshot`, still with the index it was handed
over with. Crashes do not matter, as long as the run is timely and `applyLog` stays within its log.
What `Start` and `Snapshot` may bring in is a parameter: `E` of entries and `S` of an index with the
bytes of the snapshot up to it. -/
namespace RaftLabs.Raft
open Lib World
variable {n : Nat} {C : Type} {w w' : World n C} {i : Fin n} {act : Action n C}
  {rf rf' : Raft n C} {node node' : Node n C}
  {E E' : RaftLogEntry C → Prop} {S S' : Nat → Bytes → Prop}

/-- A persister's snapshot with its index: none yet, or one that was handed over. -/
def Handed (S : Nat → Bytes → Prop) (index : Nat) (data : Bytes) : Prop :=
  (index = 0 ∧ data = []) ∨ S index data

/-- A message on an apply channel. -/
def SuppliedMsg (E : RaftLogEntry C → Prop) (S : Nat → Bytes → Prop) (m : ApplyMsg C) : Prop :=
  (∃ e, E e ∧ m = commandMsg e) ∨ (IsSnapshot m ∧ S m.snapshotIndex m.snapshot)

def SuppliedArgs (E : RaftLogEntry C → Prop) (S : Nat → Bytes → Prop) : Args n C → Prop
  | .requestVote _ => True
  | .appendEntries args => ∀ e ∈ args.entries, E e
  | .installSnapshot args => Handed S args.lastIncludedIndex args.data

structure SuppliedRaft (E : RaftLogEntry C → Prop) (S : Nat → Bytes → Prop) (rf : Raft n C) :
    Prop where
  logs : ∀ e ∈ rf.logs, E e
  saved : ∀ e ∈ rf.savedLogs, E e
  disk : Handed S rf.snapshotLastIncludedIndex rf.persister.snapshot
  savedIndex : rf.savedSnapshotIndex = rf.snapshotLastIncludedIndex
  message : rf.snapshotMsg.snapshotIndex ≠ 0 → SuppliedMsg E S rf.snapshotMsg

structure SuppliedNode (E : RaftLogEntry C → Prop) (S : Nat → Bytes → Prop) (node : Node n C) :
    Prop where
  raft : SuppliedRaft E S node.raft
  pending : ∀ m ∈ node.pending, SuppliedMsg E S m

structure Supplied (E : RaftLogEntry C → Prop) (S : Nat → Bytes → Prop) (w : World n C) : Prop where
  servers : ∀ i, SuppliedNode E S (w.nodes i)
  requests : ∀ c ∈ w.calls, SuppliedArgs E S c.args
  delivered : ∀ i, ∀ m ∈ deliveries i w.trace, SuppliedMsg E S m

/-! ### More may be brought in -/

section Mono
variable (hE : ∀ e, E e → E' e) (hS : ∀ index data, S index data → S' index data)
include hE hS

theorem SuppliedMsg.mono {m : ApplyMsg C} (h : SuppliedMsg E S m) : SuppliedMsg E' S' m := by
  rcases h with ⟨e, he, heq⟩ | ⟨hsnap, hs⟩
  · exact .inl ⟨e, hE e he, heq⟩
  · exact .inr ⟨hsnap, hS _ _ hs⟩

omit hE in
theorem Handed.mono {index : Nat} {data : Bytes} (h : Handed S index data) :
    Handed S' index data :=
  h.imp_right (hS _ _)

theorem SuppliedArgs.mono {args : Args n C} (h : SuppliedArgs E S args) :
    SuppliedArgs E' S' args := by
  cases args with
  | requestVote args => trivial
  | appendEntries args => exact fun e he => hE e (h e he)
  | installSnapshot args => exact Handed.mono hS h

theorem SuppliedRaft.mono (h : SuppliedRaft E S rf) : SuppliedRaft E' S' rf where
  logs e he := hE e (h.logs e he)
  saved e he := hE e (h.saved e he)
  disk := h.disk.mono hS
  savedIndex := h.savedIndex
  message hsome := (h.message hsome).mono hE hS

theorem Supplied.mono (h : Supplied E S w) : Supplied E' S' w where
  servers i := ⟨(h.servers i).raft.mono hE hS, fun m hm => ((h.servers i).pending m hm).mono hE hS⟩
  requests c hc := (h.requests c hc).mono hE hS
  delivered i m hm := (h.delivered i m hm).mono hE hS

end Mono

/-! ### Methods -/

theorem suppliedRaft_make (me : Fin n) : SuppliedRaft E S (make me ({} : Persister n C)) where
  logs _ he := nomatch he
  saved _ he := nomatch he
  disk := .inl ⟨rfl, rfl⟩
  savedIndex := rfl
  message h := absurd rfl h

/-- A restart resumes with the disk. -/
theorem SuppliedRaft.restart (h : SuppliedRaft E S rf) (me : Fin n) :
    SuppliedRaft E S (make me rf.persister) := by
  rw [make_eq]
  have hdisk := h.disk
  rw [← h.savedIndex] at hdisk
  exact ⟨h.saved, h.saved, hdisk, rfl, fun hsome => absurd rfl hsome⟩

/-- A log that was rewritten with supplied entries, saved or not. -/
theorem SuppliedRaft.rewrites (h : SuppliedRaft E S rf) {logs : List (RaftLogEntry C)}
    (hrw : Rewrites rf rf' logs) (hlogs : ∀ e ∈ logs, E e) : SuppliedRaft E S rf' := by
  have hmem : ∀ e ∈ rf'.logs, E e := by
    rw [hrw.logs]
    exact hlogs
  refine ⟨hmem, ?_, ?_, ?_, ?_⟩
  · unfold Raft.savedLogs
    rcases hrw.saved with heq | heq <;> rw [heq]
    · exact h.saved
    · exact hmem
  · rw [hrw.snap, hrw.bytes]
    exact h.disk
  · unfold Raft.savedSnapshotIndex
    rcases hrw.saved with heq | heq <;> rw [heq]
    · rw [hrw.snap]
      exact h.savedIndex
    · rfl
  · rw [hrw.snapshotMsg]
    exact h.message

/-- A log that was cut by `makeRaftState`, with the cut log and the snapshot on disk. -/
theorem suppliedRaft_of_cut {index : Nat} {data : Bytes} {saved : RaftState n C}
    (hlogs : ∀ e ∈ rf.logs, E e) (hcont : Contiguous rf.snapshotLastIncludedIndex rf.logs)
    (hmake : makeRaftState rf (index + 1) = some saved)
    (hge : rf.snapshotLastIncludedIndex ≤ index) (hdata : S index data)
    (hpersister : rf'.persister = { raftstate := some saved, snapshot := data })
    (hlogs' : rf'.logs = saved.logs) (hsnap : rf'.snapshotLastIncludedIndex = index)
    (hmsg : rf'.snapshotMsg.snapshotIndex ≠ 0 → SuppliedMsg E S rf'.snapshotMsg) :
    SuppliedRaft E S rf' := by
  obtain ⟨hsaved, hindex, -⟩ := makeRaftState_log hmake hcont
  have hcut : ∀ e ∈ saved.logs, E e := by
    intro e he
    rw [hsaved] at he
    exact hlogs e (List.mem_of_mem_drop he)
  refine ⟨?_, ?_, ?_, ?_, hmsg⟩
  · rw [hlogs']
    exact hcut
  · unfold Raft.savedLogs
    rw [hpersister]
    exact hcut
  · rw [hsnap, hpersister]
    exact .inr hdata
  · unfold Raft.savedSnapshotIndex
    rw [hpersister, hsnap]
    show saved.snapshotLastIncludedIndex = index
    omega

/-- The entry that `Start` makes at a leader. -/
def startEntry (rf : Raft n C) (command : C) : RaftLogEntry C where
  command := command
  term := rf.currentTerm
  index := rf.lastLogIndex + 1

/-- What a step may bring in: the entry that `Start` makes at a leader and the snapshot that a
service takes. -/
structure Brings (E : RaftLogEntry C → Prop) (S : Nat → Bytes → Prop) (w : World n C)
    (act : Action n C) : Prop where
  start : ∀ i command, act = .start i command → (w.nodes i).raft.state = .leader →
    E (startEntry (w.nodes i).raft command)
  snapshot : ∀ i index data, act = .snapshot i index data → S index data

/-- Only a leader adds an entry. -/
theorem MethodStep.leader_of_added {command : C} {e : RaftLogEntry C}
    (h : MethodStep w i (.start i command) rf') (hlogs : rf'.logs = (w.nodes i).raft.logs ++ [e]) :
    (w.nodes i).raft.state = .leader := by
  cases h with
  | same => simp at hlogs
  | volatile => simp at hlogs
  | stepDown => simp [Raft.stepDown, Raft.persist] at hlogs
  | start =>
    unfold Raft.start at hlogs
    split at hlogs
    · simp at hlogs
    · exact not_not.mp ‹_›

theorem MethodStep.supplied (h : MethodStep w i act rf') (hbrings : Brings E S w act)
    (hraft : SuppliedRaft E S (w.nodes i).raft)
    (hcont : Contiguous (w.nodes i).raft.snapshotLastIncludedIndex (w.nodes i).raft.logs)
    (hrequests : ∀ c ∈ w.calls, SuppliedArgs E S c.args) : SuppliedRaft E S rf' := by
  have hstep := h.logStep
  cases hstep with
  | kept hrw => exact hraft.rewrites hrw hraft.logs
  | @merged k c args _ m hk hdst hargs _ _ _ _ hrw =>
    have hreq := hrequests c (List.mem_of_getElem? hk)
    rw [hargs] at hreq
    refine hraft.rewrites hrw fun e he => ?_
    rcases List.mem_append.mp he with hold | hnew
    · exact hraft.logs e (List.mem_of_mem_take hold)
    · exact hreq e (List.mem_of_mem_drop hnew)
  | @added command _ hrw =>
    refine hraft.rewrites hrw fun e he => ?_
    rcases List.mem_append.mp he with hold | hnew
    · exact hraft.logs e hold
    · rw [List.mem_singleton.mp hnew]
      exact hbrings.start i command rfl (h.leader_of_added hrw.logs)
  | @compacted index data saved _ hge hmake =>
    refine suppliedRaft_of_cut hraft.logs hcont hmake hge
      (hbrings.snapshot i index data rfl) rfl rfl ?_ hraft.message
    obtain ⟨-, hindex, -⟩ := makeRaftState_log hmake hcont
    show max saved.snapshotLastIncludedIndex index = index
    omega
  | @installed k c args saved hk _ hargs hinst hmake =>
    have hreq := hrequests c (List.mem_of_getElem? hk)
    rw [hargs] at hreq
    have hacc := acceptLeader_rewrites (w.nodes i).raft args.term
    have hraft' := hraft.rewrites hacc hraft.logs
    have hlt : (w.nodes i).raft.snapshotLastIncludedIndex < args.lastIncludedIndex := hinst.2.1
    -- an index above the server's own snapshot is not zero
    have hdata : S args.lastIncludedIndex args.data := by
      rcases hreq with ⟨hzero, -⟩ | hdata
      · omega
      · exact hdata
    refine suppliedRaft_of_cut hraft'.logs ?_ hmake ?_ hdata rfl rfl rfl
      fun _ => .inr ⟨⟨rfl, rfl, rfl⟩, hdata⟩
    · rw [hacc.snap, hacc.logs]
      exact hcont
    · rw [hacc.snap]
      exact Nat.le_of_lt hlt

/-! ### Servers -/

theorem ServerStep.supplied {msgs : List (ApplyMsg C)} (h : ServerStep w i act node msgs)
    (hbrings : Brings E S w act) (hnode : SuppliedNode E S (w.nodes i))
    (hcont : Contiguous (w.nodes i).raft.snapshotLastIncludedIndex (w.nodes i).raft.logs)
    (hrequests : ∀ c ∈ w.calls, SuppliedArgs E S c.args) :
    SuppliedNode E S node ∧ ∀ m ∈ msgs, SuppliedMsg E S m := by
  cases h with
  | method hm happlying =>
    have hpending : node.pending = (w.nodes i).pending := by
      rw [Node.pending, Node.pending, happlying]
    refine ⟨⟨hm.supplied hbrings hnode.raft hcont hrequests, ?_⟩, fun _ hm => absurd hm List.not_mem_nil⟩
    rw [hpending]
    exact hnode.pending
  | applyTake _ htake =>
    obtain ⟨logs, hlogs, heq⟩ := Option.map_eq_some_iff.mp htake
    cases heq
    refine ⟨⟨⟨hnode.raft.logs, hnode.raft.saved, hnode.raft.disk, hnode.raft.savedIndex,
      fun hsome => absurd rfl hsome⟩, fun m hm => ?_⟩, fun _ hm => absurd hm List.not_mem_nil⟩
    rcases mem_applyMsgs hm with ⟨hsome, rfl⟩ | ⟨e, he, rfl⟩
    · exact hnode.raft.message hsome
    · obtain ⟨p, hp, -⟩ := applyLogs_mem hlogs he
      exact .inl ⟨e, hnode.raft.logs e (List.mem_of_getElem? hp), rfl⟩
  | @applySend msg rest last happlying =>
    have hpending : (w.nodes i).pending = msg :: rest := by rw [Node.pending, happlying]
    have hall := hnode.pending
    rw [hpending] at hall
    refine ⟨⟨hnode.raft, fun m hm => hall m (List.mem_cons_of_mem _ hm)⟩, fun m hm => ?_⟩
    rw [List.mem_singleton.mp hm]
    exact hall msg List.mem_cons_self
  | @applyDone last =>
    refine ⟨⟨?_, fun _ hm => absurd hm List.not_mem_nil⟩, fun _ hm => absurd hm List.not_mem_nil⟩
    have hraft := hnode.raft
    cases last with
    | none => exact hraft
    | some k => exact ⟨hraft.logs, hraft.saved, hraft.disk, hraft.savedIndex, hraft.message⟩
  | restart =>
    exact ⟨⟨hnode.raft.restart i, fun _ hm => absurd hm List.not_mem_nil⟩, fun _ hm => absurd hm List.not_mem_nil⟩

/-- What a server asks is of what it has. -/
theorem Asks.supplied {j : Fin n} {args : Args n C} (h : Asks rf j args)
    (hraft : SuppliedRaft E S rf) : SuppliedArgs E S args := by
  cases h with
  | vote => trivial
  | heartBeat hbeat =>
    obtain ⟨_, _, -, rfl⟩ := heartBeatArgs_cases hbeat
    exact fun e he => nomatch he
  | entries hrep =>
    rcases replicateLog_cases hrep with heq | ⟨_, heq⟩ | ⟨_, _, _, entries, hslice, _, heq⟩
    · cases heq
    · cases heq
    · cases heq
      intro e he
      obtain ⟨-, -, -, rfl⟩ := slice?_eq_some hslice
      exact hraft.logs e (List.mem_of_mem_take (List.mem_of_mem_drop he))
  | snapshot hrep =>
    rcases replicateLog_cases hrep with heq | ⟨_, heq⟩ | ⟨_, _, _, _, _, _, heq⟩
    · cases heq
    · cases heq
      exact hraft.disk
    · cases heq

/-! ### Every run -/

theorem supplied_initial : Supplied E S (World.initial n C) where
  servers i := ⟨suppliedRaft_make i, fun _ hm => nomatch hm⟩
  requests _ hc := nomatch hc
  delivered _ _ hm := nomatch hm

theorem Supplied.step (h : Supplied E S w) (hpos : AllPositioned w) (hbrings : Brings E S w act)
    (hstep : (cluster n C).step w act = some w') : Supplied E S w' := by
  have hservers : ∀ i, SuppliedNode E S (w'.nodes i) ∧
      ∀ m ∈ deliveries i w'.trace, SuppliedMsg E S m := by
    intro i
    obtain ⟨msgs, hserver, htrace⟩ := serverStep_of_step hstep i
    obtain ⟨hnode, hmsgs⟩ := hserver.supplied hbrings (h.servers i) (hpos.servers i).logs h.requests
    refine ⟨hnode, fun m hm => ?_⟩
    rw [htrace] at hm
    exact (List.mem_append.mp hm).elim (h.delivered i m) (hmsgs m)
  refine ⟨fun i => (hservers i).1, fun c hc => ?_, fun i => (hservers i).2⟩
  rcases originates_of_stepped (stepped hstep) hc with ⟨c₀, hc₀, -, -, hsame⟩ | hasks
  · rw [← hsame]
    exact h.requests c₀ hc₀
  · exact hasks.supplied (hservers c.src).1.raft

/-- What the services hand to Raft. -/
inductive Input (C : Type) where
  | entry (e : RaftLogEntry C)
  | snapshot (index : Nat) (data : Bytes)
deriving DecidableEq

/-- What a step takes from the services: a command when `Start` accepts it, and snapshots. -/
def inputs (w : World n C) : Action n C → List (Input C)
  | .start i command =>
    if (w.nodes i).raft.state = .leader then [.entry (startEntry (w.nodes i).raft command)] else []
  | .snapshot _ index data => [.snapshot index data]
  | _ => []

theorem brings_inputs (w : World n C) (act : Action n C) :
    Brings (fun e => .entry e ∈ inputs w act) (fun index data => .snapshot index data ∈ inputs w act)
      w act := by
  constructor
  case start =>
    rintro i command rfl hleader
    simp [inputs, hleader]
  case snapshot =>
    rintro i index data rfl
    simp [inputs]

theorem Brings.mono (h : Brings E S w act) (hE : ∀ e, E e → E' e)
    (hS : ∀ index data, S index data → S' index data) : Brings E' S' w act :=
  ⟨fun i command heq hleader => hE _ (h.start i command heq hleader),
    fun i index data heq => hS _ _ (h.snapshot i index data heq)⟩

theorem supplied_reach {s : World n C × List (Input C)}
    (h : ((cluster n C).record inputs).Reach System.anyStep s) :
    Supplied (fun e => .entry e ∈ s.2) (fun index data => .snapshot index data ∈ s.2) s.1 := by
  refine h.invariant (P := fun s => Supplied (fun e => .entry e ∈ s.2)
    (fun index data => .snapshot index data ∈ s.2) s.1) supplied_initial ?_
  intro s act s' hreach hs _ hstep
  obtain ⟨hstep, hseen⟩ := System.record_step.mp hstep
  rw [hseen]
  have hpos := allPositioned (System.reach_record hreach)
  have hbrings : Brings (fun e => .entry e ∈ s.2 ++ inputs s.1 act)
      (fun index data => .snapshot index data ∈ s.2 ++ inputs s.1 act) s.1 act :=
    (brings_inputs s.1 act).mono (fun _ he => List.mem_append_right _ he)
      fun _ _ hs => List.mem_append_right _ hs
  exact (hs.mono (fun _ he => List.mem_append_left _ he)
    fun _ _ hs => List.mem_append_left _ hs).step hpos hbrings hstep

/-- **Nothing is delivered that was not handed in.** In every timely run within the logs, with
crashes at any point, a command that a service receives is one that some `Start` accepted, at the
index and in the term it was given there, and a snapshot is one that some service took, with the
index it took it at. -/
theorem delivered_was_handed_in {s : InMemory (World n C) n C × List (Input C)}
    (h : ((processes n C).record fun x a => inputs x.state a.act).Reach
      (fun s a => timely appliesWithin s.1 a) s) (i : Fin n) (m : ApplyMsg C)
    (hm : m ∈ deliveries i s.1.state.trace) :
    (∃ e, .entry e ∈ s.2 ∧ m = commandMsg e) ∨
      (IsSnapshot m ∧ .snapshot m.snapshotIndex m.snapshot ∈ s.2) := by
  have hrecord := System.Reach.map_record (T := cluster n C) InMemory.state Scheduled.act rfl
    (fun _ _ _ hx hok hstep =>
      ⟨hok.1, step_of_within (hx.mono fun _ _ _ _ _ => trivial) hok hstep⟩) h
  exact (supplied_reach (hrecord.mono fun _ _ _ _ _ => trivial)).delivered i m hm

theorem snapshotThenEntry_inputs :
    ((((processes 3 Nat).record fun x a => inputs x.state a.act).runWhere
        (fun s a => timely appliesWithin s.1 a) ((processes 3 Nat).init, [])
        (scheduled [] (snapshotThenEntry 0 1 2))).map fun s =>
      decide (s.2 = [.entry ⟨10, 1, 1⟩, .entry ⟨11, 1, 2⟩, .snapshot 1 []] ∧
        commandMsg ⟨11, 1, 2⟩ ∈ deliveries 2 s.1.state.trace)) = some true := by
  decide +kernel

theorem delivered_was_handed_in_snapshotThenEntry :
    ∃ s : InMemory (World 3 Nat) 3 Nat × List (Input Nat),
    ((processes 3 Nat).record fun x a => inputs x.state a.act).Reach
      (fun s a => timely appliesWithin s.1 a) s ∧
    s.2 = [.entry ⟨10, 1, 1⟩, .entry ⟨11, 1, 2⟩, .snapshot 1 []] ∧
    commandMsg ⟨11, 1, 2⟩ ∈ deliveries 2 s.1.state.trace ∧
    ((∃ e, .entry e ∈ s.2 ∧ commandMsg ⟨11, 1, 2⟩ = commandMsg e) ∨
      (IsSnapshot (commandMsg (⟨11, 1, 2⟩ : RaftLogEntry Nat)) ∧ .snapshot 0 [] ∈ s.2)) := by
  obtain ⟨s, hreach, hinputs, hm⟩ := System.exists_reach_of_runWhere snapshotThenEntry_inputs
  exact ⟨s, hreach, hinputs, hm, delivered_was_handed_in hreach 2 _ hm⟩

end RaftLabs.Raft
