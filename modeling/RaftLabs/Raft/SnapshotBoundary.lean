import RaftLabs.Raft.Contiguity
import RaftLabs.Raft.Safety

/-! What a crash leaves of a server's snapshot.

`Snapshot` and `InstallSnapshot` save the state that `makeRaftState` computes from the local log.
In memory, `InstallSnapshot` takes the snapshot's term from the sender instead, so the two agree
only where the last entry of the local log up to the snapshot's index has the sender's term.
`savesBoundary` asks for that. Then a restart finds the boundary it had, and index, bytes and term
all come from a call of some service's `Snapshot`. -/
namespace RaftLabs.Raft
open Lib World
variable {n : Nat} {C : Type} {w w' : World n C} {i : Fin n} {act : Action n C}
  {rf rf' : Raft n C}

/-! ### The boundary on disk -/

/-- The term of the last entry of the log up to `index`, or of the snapshot when the log has no
entry so early. -/
def termUpTo (rf : Raft n C) (index : Nat) : Nat :=
  match (rf.logs.take (index - rf.snapshotLastIncludedIndex)).getLast? with
  | some e => e.term
  | none => rf.snapshotLastIncludedTerm

/-- The local log has the snapshot's term where the snapshot ends. -/
def EndsInTerm (node : Node n C) (args : InstallSnapshotArg n) : Prop :=
  node.raft.termUpTo args.lastIncludedIndex = args.lastIncludedTerm

instance (node : Node n C) (args : InstallSnapshotArg n) : Decidable (EndsInTerm node args) :=
  inferInstanceAs (Decidable (_ = _))

/-- The step clears no vote for another server, and takes over no snapshot that ends in another
term than the local log. -/
def savesBoundary (w : World n C) (act : Action n C) : Prop :=
  clearsOwnVotes w act ∧ w.handles (OnInstall EndsInTerm) act

instance (w : World n C) (act : Action n C) : Decidable (savesBoundary w act) :=
  inferInstanceAs (Decidable (clearsOwnVotes w act ∧ w.handles (OnInstall EndsInTerm) act))

/-- A server that has the entry at which the snapshot was taken satisfies the condition; so does one
whose log is shorter but ends in the same term. -/
theorem endsInTerm_of_entryAt {node : Node n C} {args : InstallSnapshotArg n} {e : RaftLogEntry C}
    (h : node.raft.entryAt args.lastIncludedIndex = some e) (hterm : e.term = args.lastIncludedTerm) :
    EndsInTerm node args := by
  unfold entryAt at h
  split at h
  · rename_i hlt
    have hlen := (List.getElem?_eq_some_iff.mp h).1
    have hlast : (node.raft.logs.take (args.lastIncludedIndex -
        node.raft.snapshotLastIncludedIndex)).getLast? = some e := by
      rw [List.getLast?_eq_getElem?, List.length_take, Nat.min_eq_left (by omega),
        List.getElem?_take_of_lt (by omega)]
      exact h
    rw [EndsInTerm, termUpTo, hlast]
    exact hterm
  · cases h

/-- What `makeRaftState` saves as the term of the snapshot. -/
theorem makeRaftState_term {index : Nat} {saved : RaftState n C}
    (h : rf.makeRaftState (index + 1) = some saved)
    (hcont : Contiguous rf.snapshotLastIncludedIndex rf.logs) :
    saved.snapshotLastIncludedTerm = rf.termUpTo index := by
  obtain ⟨-, -, hterm⟩ := makeRaftState_log h hcont
  unfold termUpTo
  rcases hterm with ⟨hnone, heq⟩ | ⟨hlt, e, he, heq⟩
  · have hnil : rf.logs.take (index - rf.snapshotLastIncludedIndex) = [] := by
      rcases hnone with hlogs | hle
      · rw [hlogs, List.take_nil]
      · rw [Nat.sub_eq_zero_of_le hle, List.take_zero]
    rw [hnil]
    exact heq
  · have hlen := (List.getElem?_eq_some_iff.mp he).1
    have hlast : (rf.logs.take (index - rf.snapshotLastIncludedIndex)).getLast? = some e := by
      rw [List.getLast?_eq_getElem?, List.length_take, List.getElem?_take_of_lt (by omega)]
      exact he
    rw [hlast]
    exact heq

/-- What `InstallSnapshot` saves as the term of the snapshot. -/
theorem makeRaftState_acceptLeader {term index : Nat} {saved : RaftState n C}
    (h : (acceptLeader rf term).1.makeRaftState (index + 1) = some saved)
    (hcont : Contiguous rf.snapshotLastIncludedIndex rf.logs) :
    saved.snapshotLastIncludedTerm = rf.termUpTo index := by
  have hframe := acceptLeader_frame rf term
  have hterm := makeRaftState_term h (by rw [hframe]; exact hcont)
  rw [hframe] at hterm
  exact hterm

theorem LogStep.savedSnapshotTerm (h : LogStep w i act rf')
    (hcont : Contiguous (w.nodes i).raft.snapshotLastIncludedIndex (w.nodes i).raft.logs)
    (hok : w.handles (OnInstall EndsInTerm) act)
    (hsaved : (w.nodes i).raft.savedSnapshotTerm = (w.nodes i).raft.snapshotLastIncludedTerm) :
    rf'.savedSnapshotTerm = rf'.snapshotLastIncludedTerm := by
  cases h with
  | kept hr => exact hr.savedSnapshotTerm hsaved
  | merged _ _ _ _ _ _ _ hr => exact hr.savedSnapshotTerm hsaved
  | added hr => exact hr.savedSnapshotTerm hsaved
  | compacted => rfl
  | installed hk hdst hargs hinst hmake =>
    exact (makeRaftState_acceptLeader hmake hcont).trans (hok.install hk hdst hargs hinst)

theorem ServerStep.savedSnapshotTerm {node : Node n C} {msgs : List (ApplyMsg C)}
    (h : ServerStep w i act node msgs)
    (hcont : Contiguous (w.nodes i).raft.snapshotLastIncludedIndex (w.nodes i).raft.logs)
    (hok : w.handles (OnInstall EndsInTerm) act)
    (hsaved : (w.nodes i).raft.savedSnapshotTerm = (w.nodes i).raft.snapshotLastIncludedTerm) :
    node.raft.savedSnapshotTerm = node.raft.snapshotLastIncludedTerm := by
  rcases h.raft_cases with hm | ⟨_, _, heq⟩ | ⟨-, heq⟩
  · exact hm.logStep.savedSnapshotTerm hcont hok hsaved
  · rw [heq]
    exact hsaved
  · rw [heq, make_eq]
    rfl

/-- The snapshot term of every server is on disk between its steps. -/
theorem snapshotTerm_saved (h : (cluster n C).Reach savesBoundary w) (i : Fin n) :
    (w.nodes i).raft.savedSnapshotTerm = (w.nodes i).raft.snapshotLastIncludedTerm := by
  induction h with
  | init => rfl
  | step hreach hok hstep ih =>
    have hpos := allPositioned (hreach.mono fun _ _ _ _ _ => trivial)
    obtain ⟨msgs, hs, -⟩ := serverStep_of_step hstep i
    exact hs.savedSnapshotTerm (hpos.servers i).logs hok.2 ih

/-- So restarts lose nothing that matters. -/
theorem recovers_of_savesBoundary (h : (cluster n C).Reach savesBoundary w) :
    (cluster n C).Reach recovers w := by
  refine h.mono fun w act hreach _ hok => ⟨hok.1, ?_⟩
  cases act with
  | restart i => exact snapshotTerm_saved hreach i
  | _ => trivial

/-- A restart finds the boundary as it was. -/
theorem make_boundary (h : (cluster n C).Reach savesBoundary w) (i : Fin n) :
    (make i (w.nodes i).raft.persister).snapshotLastIncludedIndex =
        (w.nodes i).raft.snapshotLastIncludedIndex ∧
      (make i (w.nodes i).raft.persister).snapshotLastIncludedTerm =
        (w.nodes i).raft.snapshotLastIncludedTerm := by
  obtain ⟨-, a, -, hrel⟩ := implements_reach (recovers_of_savesBoundary h)
  rw [make_eq]
  exact ⟨(hrel.nodes i).stores.savedSnap, snapshotTerm_saved h i⟩

/-! ### Where a boundary comes from -/

/-- A call of `Snapshot(index, data)`, with the term of the entry at `index` in the log of the
server, if the log has one. -/
structure Taken where
  index : Nat
  data : Bytes
  term : Option Nat
deriving DecidableEq

/-- The snapshot that the server's service takes at `index`. -/
def taken (rf : Raft n C) (index : Nat) (data : Bytes) : Taken :=
  { index := index, data := data, term := (rf.entryAt index).map (·.term) }

/-- The snapshots that services hand over. -/
def takes (w : World n C) : Action n C → List Taken
  | .snapshot i index data => [(w.nodes i).raft.taken index data]
  | _ => []

/-- The index and the bytes are those of one snapshot, the index and the term those of an entry
that one was taken at; or nothing was taken yet. -/
def Origin (seen : List Taken) (index term : Nat) (data : Bytes) : Prop :=
  ((index = 0 ∧ data = []) ∨ ∃ t ∈ seen, t.index = index ∧ t.data = data) ∧
    ((index = 0 ∧ term = 0) ∨ ∃ t ∈ seen, t.index = index ∧ t.term = some term)

theorem Origin.append {seen : List Taken} {index term : Nat} {data : Bytes}
    (h : Origin seen index term data) (more : List Taken) :
    Origin (seen ++ more) index term data := by
  obtain ⟨hdata, hterm⟩ := h
  refine ⟨hdata.imp_right ?_, hterm.imp_right ?_⟩ <;>
    exact fun ⟨t, ht, heq⟩ => ⟨t, List.mem_append_left _ ht, heq⟩

/-- Every boundary of a server has an origin. -/
def ServerOrigin (seen : List Taken) (rf : Raft n C) : Prop :=
  Origin seen rf.snapshotLastIncludedIndex rf.snapshotLastIncludedTerm rf.persister.snapshot

/-- And so has every boundary under way. -/
def CallOrigin (seen : List Taken) (args : InstallSnapshotArg n) : Prop :=
  Origin seen args.lastIncludedIndex args.lastIncludedTerm args.data

def Origins (seen : List Taken) (w : World n C) : Prop :=
  (∀ i, ServerOrigin seen (w.nodes i).raft) ∧
    ∀ c ∈ w.calls, ∀ args, c.args = .installSnapshot args → CallOrigin seen args

/-- A snapshot of the service is its own origin; the term is the one its log has at the index,
or was there already. -/
theorem origin_compacted {index : Nat} {data : Bytes} {saved : RaftState n C} {seen : List Taken}
    (hmake : rf.makeRaftState (index + 1) = some saved)
    (hcont : Contiguous rf.snapshotLastIncludedIndex rf.logs)
    (hge : rf.snapshotLastIncludedIndex ≤ index) (hend : index ≤ rf.endIndex)
    (h : ServerOrigin seen rf) :
    ServerOrigin (seen ++ [rf.taken index data]) (rf.compacted index data saved) := by
  unfold endIndex at hend
  obtain ⟨-, hindex, hterm⟩ := makeRaftState_log hmake hcont
  have hsnap : (rf.compacted index data saved).snapshotLastIncludedIndex = index := by
    show max saved.snapshotLastIncludedIndex index = index
    omega
  have hmem : rf.taken index data ∈ seen ++ [rf.taken index data] :=
    List.mem_append_right _ (List.mem_singleton.mpr rfl)
  unfold ServerOrigin
  rw [hsnap]
  refine ⟨.inr ⟨_, hmem, rfl, rfl⟩, ?_⟩
  show (index = 0 ∧ saved.snapshotLastIncludedTerm = 0) ∨
    ∃ t ∈ seen ++ [rf.taken index data], t.index = index ∧
      t.term = some saved.snapshotLastIncludedTerm
  rcases hterm with ⟨hkept, hsame⟩ | ⟨hlt, e, he, heq⟩
  · -- nothing was cut, so the index is the old one
    have hold : rf.snapshotLastIncludedIndex = index := by
      rcases hkept with hnil | hle
      · rw [hnil, List.length_nil] at hend
        omega
      · omega
    rw [hsame, ← hold]
    exact (h.append _).2
  · have hlast : min (index - rf.snapshotLastIncludedIndex) rf.logs.length - 1 =
        index - rf.snapshotLastIncludedIndex - 1 := by omega
    rw [hlast] at he
    refine .inr ⟨_, hmem, rfl, ?_⟩
    show (rf.entryAt index).map (·.term) = _
    rw [entryAt, if_pos hlt, he, heq]
    rfl

theorem Rewrites.serverOrigin {logs : List (RaftLogEntry C)} {seen : List Taken}
    (hr : Rewrites rf rf' logs) (h : ServerOrigin seen rf) : ServerOrigin seen rf' := by
  unfold ServerOrigin at h ⊢
  rw [hr.snap, hr.snapTerm, hr.bytes]
  exact h

theorem LogStep.serverOrigin {seen : List Taken} (h : LogStep w i act rf')
    (hcont : Contiguous (w.nodes i).raft.snapshotLastIncludedIndex (w.nodes i).raft.logs)
    (hend : (w.nodes i).delivered ≤ (w.nodes i).raft.endIndex) (ho : Origins seen w) :
    ServerOrigin (seen ++ takes w act) rf' := by
  cases h with
  | kept hr => exact hr.serverOrigin ((ho.1 i).append _)
  | merged _ _ _ _ _ _ _ hr => exact hr.serverOrigin ((ho.1 i).append _)
  | added hr => exact hr.serverOrigin ((ho.1 i).append _)
  | compacted hindex hge hmake =>
    exact origin_compacted hmake hcont hge (Nat.le_trans hindex hend) (ho.1 i)
  | installed hk _ hargs =>
    exact (ho.2 _ (List.mem_of_getElem? hk) _ hargs).append _

theorem ServerStep.serverOrigin {seen : List Taken} {node : Node n C} {msgs : List (ApplyMsg C)}
    (h : ServerStep w i act node msgs)
    (hcont : Contiguous (w.nodes i).raft.snapshotLastIncludedIndex (w.nodes i).raft.logs)
    (hend : (w.nodes i).delivered ≤ (w.nodes i).raft.endIndex)
    (hmake : (make i (w.nodes i).raft.persister).snapshotLastIncludedIndex =
        (w.nodes i).raft.snapshotLastIncludedIndex ∧
      (make i (w.nodes i).raft.persister).snapshotLastIncludedTerm =
        (w.nodes i).raft.snapshotLastIncludedTerm) (ho : Origins seen w) :
    ServerOrigin (seen ++ takes w act) node.raft := by
  have hsame : ServerOrigin (seen ++ takes w act) (w.nodes i).raft := (ho.1 i).append _
  rcases h.raft_cases with hm | ⟨_, _, heq⟩ | ⟨-, heq⟩
  · exact hm.logStep.serverOrigin hcont hend ho
  · rw [heq]
    exact hsame
  · have hbytes : (make i (w.nodes i).raft.persister).persister = (w.nodes i).raft.persister := by
      rw [make_eq]
    rw [heq, ServerOrigin, hmake.1, hmake.2, hbytes]
    exact hsame

/-! ### Calls -/

/-- The requests to install a snapshot satisfy `Q`. -/
def SnapshotCalls (Q : InstallSnapshotArg n → Prop) (w : World n C) : Prop :=
  ∀ c ∈ w.calls, ∀ args, c.args = .installSnapshot args → Q args

/-- A server that sends a snapshot sends its own. -/
theorem SnapshotCalls.step {Q : InstallSnapshotArg n → Prop} (h : SnapshotCalls Q w)
    (hst : Stepped w act w') (hown : ∀ i, Q
      { term := (w'.nodes i).raft.currentTerm
        leaderId := (w'.nodes i).raft.me
        lastIncludedIndex := (w'.nodes i).raft.snapshotLastIncludedIndex
        lastIncludedTerm := (w'.nodes i).raft.snapshotLastIncludedTerm
        data := (w'.nodes i).raft.persister.snapshot }) : SnapshotCalls Q w' := by
  intro c hc args hargs
  rcases originates_of_stepped hst hc with ⟨c₀, hc₀, -, -, hsame⟩ | hasks
  · exact h c₀ hc₀ args (hsame.trans hargs)
  · rw [hargs] at hasks
    cases hasks with
    | snapshot hrep =>
      rw [replicateLog_snapshot hrep]
      exact hown c.src

/-- Every step of a recorded run keeps the origins. -/
theorem origins_reach {s : World n C × List Taken}
    (h : ((cluster n C).record takes).Reach (fun s act => savesBoundary s.1 act) s) :
    Origins s.2 s.1 := by
  refine h.invariant (P := fun s => Origins s.2 s.1)
    ⟨fun i => ⟨.inl ⟨rfl, rfl⟩, .inl ⟨rfl, rfl⟩⟩, fun _ hc => absurd hc List.not_mem_nil⟩
    fun s act s' hreach ho hok hstep => ?_
  obtain ⟨hstep, htaken⟩ := System.record_step.mp hstep
  have hrun := System.reach_record hreach
  obtain ⟨-, a, hsound, hrel⟩ := implements_reach (recovers_of_savesBoundary hrun)
  rw [htaken]
  have hservers : ∀ i, ServerOrigin (s.2 ++ takes s.1 act) (s'.1.nodes i).raft := by
    intro i
    obtain ⟨msgs, hserver, -⟩ := serverStep_of_step hstep i
    exact hserver.serverOrigin (hrel.contiguous hsound i)
      (hrel.le_endIndex (hrel.nodes i).delivered) (make_boundary hrun i) ho
  have hcalls : SnapshotCalls (CallOrigin (s.2 ++ takes s.1 act)) s.1 :=
    fun c hc args hargs => (ho.2 c hc args hargs).append _
  exact ⟨hservers, hcalls.step (stepped hstep) hservers⟩

/-! ### Durability -/

/-- **The snapshot boundary is durable.** In a timely run all of whose steps satisfy
`savesBoundary`, a restart finds the index and the term in memory before it; the index is the one
at which a service took the bytes on disk, and the term is that of the entry at this index in the
log of a server whose service took a snapshot there. A further step keeps memory and disk together
exactly when it satisfies the condition. -/
theorem boundary_durable {s : InMemory (World n C) n C × List Taken}
    (h : ((processes n C).record fun x act => takes x.state act.act).Reach
      (fun s act => timely savesBoundary s.1 act) s) :
    (∀ i, let rf := (s.1.state.nodes i).raft
      let rf' := make i rf.persister
      rf'.snapshotLastIncludedIndex = rf.snapshotLastIncludedIndex ∧
      rf'.snapshotLastIncludedTerm = rf.snapshotLastIncludedTerm ∧
      Origin s.2 rf'.snapshotLastIncludedIndex rf'.snapshotLastIncludedTerm
        rf.persister.snapshot) ∧
    ∀ a x', (processes n C).step s.1 a = some x' → timely clearsOwnVotes s.1 a →
      (s.1.state.handles (OnInstall EndsInTerm) a.act ↔ ∀ i,
        (make i (x'.state.nodes i).raft.persister).snapshotLastIncludedTerm =
          (x'.state.nodes i).raft.snapshotLastIncludedTerm) := by
  have hrecord := record_of_timely (fun _ => recovers_of_savesBoundary) takes h
  have hrun := System.reach_record hrecord
  refine ⟨fun i => ?_, fun a x' hstep hown => ?_⟩
  · obtain ⟨hindex, hterm⟩ := make_boundary hrun i
    refine ⟨hindex, hterm, ?_⟩
    rw [hindex, hterm]
    exact (origins_reach hrecord).1 i
  · have hstep := step_of_timely (fun _ => recovers_of_savesBoundary) (System.reach_record h)
      hown.2 hstep
    refine ⟨fun hok i => (make_boundary (.step hrun ⟨hown.1, hok⟩ hstep) i).2, fun hsaved => ?_⟩
    by_contra hnot
    obtain ⟨j, args, saved, -, hbad, hmake, hraft⟩ := not_handles_install hstep hnot
    have hpos := allPositioned (hrun.mono fun _ _ _ _ _ => trivial)
    have heq := hsaved j
    rw [make_eq, hraft] at heq
    exact hbad ((makeRaftState_acceptLeader hmake (hpos.servers j).logs).symm.trans heq)

/-- Server `i` leads term 1 and commits an entry, its service takes a snapshot, and server `k` gets
the entry, then the snapshot, and restarts. -/
def entryThenSnapshot (i j k : Fin n) : List (Action n Nat) :=
  [.electionTimeout i, .handle 0, .ret 0, .start i 10, .replicateLog i j 1, .replicateLog i k 1,
   .handle 4, .ret 4, .updateCommitIndex i 1, .applyTake i, .applySend i, .snapshot i 1 [7],
   .replicateLog i k 1, .handle 5, .handle 6, .restart k]

theorem entryThenSnapshot_runs :
    ((((processes 3 Nat).record fun x act => takes x.state act.act).runWhere
        (fun s act => timely savesBoundary s.1 act) ((processes 3 Nat).init, [])
        (scheduled [] (entryThenSnapshot 0 1 2))).map fun s =>
      decide (s.2 = [⟨1, [7], some 1⟩] ∧
        (s.1.state.nodes 2).raft.snapshotLastIncludedIndex = 1)) = some true := by
  decide +kernel

theorem boundary_durable_entryThenSnapshot : ∃ s : InMemory (World 3 Nat) 3 Nat × List Taken,
    ((processes 3 Nat).record fun x act => takes x.state act.act).Reach
      (fun s act => timely savesBoundary s.1 act) s ∧
    s.2 = [⟨1, [7], some 1⟩] ∧ (s.1.state.nodes 2).raft.snapshotLastIncludedIndex = 1 ∧
    (make 2 (s.1.state.nodes 2).raft.persister).snapshotLastIncludedIndex = 1 := by
  obtain ⟨s, hreach, htaken, hindex⟩ := System.exists_reach_of_runWhere entryThenSnapshot_runs
  exact ⟨s, hreach, htaken, hindex, ((boundary_durable hreach).1 2).1.trans hindex⟩

/-- The same without the entry: server `k` takes over the snapshot with an empty log. -/
def snapshotOnly (i j k : Fin n) : List (Action n Nat) :=
  [.electionTimeout i, .handle 0, .ret 0, .start i 10, .replicateLog i j 1, .handle 4, .ret 4,
   .updateCommitIndex i 1, .applyTake i, .applySend i, .snapshot i 1 [7], .replicateLog i k 1,
   .handle 5]

theorem snapshotOnly_runs :
    (((processes 3 Nat).runWhere (timely System.anyStep) (processes 3 Nat).init
        (scheduled [] (snapshotOnly 0 1 2))).map fun x =>
      decide ((x.state.nodes 2).raft.snapshotLastIncludedTerm = 1 ∧
        (make 2 (x.state.nodes 2).raft.persister).snapshotLastIncludedTerm = 0)) = some true := by
  decide +kernel

/-- With any step allowed, a restart can find another snapshot term. -/
theorem boundary_lost : ¬ ∀ x : InMemory (World 3 Nat) 3 Nat,
    (processes 3 Nat).Reach (timely System.anyStep) x → ∀ i,
      (make i (x.state.nodes i).raft.persister).snapshotLastIncludedTerm =
        (x.state.nodes i).raft.snapshotLastIncludedTerm := by
  intro hall
  obtain ⟨x, hreach, hone, hzero⟩ := System.exists_reach_of_runWhere snapshotOnly_runs
  have heq := hall x hreach 2
  omega

end RaftLabs.Raft
