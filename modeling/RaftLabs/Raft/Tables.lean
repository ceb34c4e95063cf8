import RaftLabs.Lib.Cursor
import RaftLabs.Raft.Contiguity

/-! What a step does to a leader's `NextIndex` and `MatchIndex`.

The two numbers a leader keeps for another server are a `Cursor`: `AppendEntries` and
`InstallSnapshot` probe it, a success confirms, a conflict moves it back. `TableStep` lists what
can become of them in a step without a crash; `Tables` is what a leader's numbers have in
common, and every move keeps it. -/
namespace RaftLabs.Raft
open Lib World
variable {n : Nat} {C : Type} {w w' : World n C} {i : Fin n} {act : Action n C}
  {rf rf' : Raft n C} {server s : Fin n} {k next : Nat}

/-! ### Cursors -/

/-- What the server knows of `server` as a leader. -/
def cursor (rf : Raft n C) (server : Fin n) : Cursor := ⟨rf.nextIndex server, rf.matchIndex server⟩

@[simp] theorem cursor_confirmed : (rf.confirmed server k).cursor server =
    (rf.cursor server).confirm k := by
  simp [cursor, confirmed, Cursor.confirm]

@[simp] theorem cursor_confirmed_of_ne (h : s ≠ server) :
    (rf.confirmed server k).cursor s = rf.cursor s := by
  simp [cursor, confirmed, h]

@[simp] theorem cursor_retreated : (rf.retreated server next).cursor server =
    (rf.cursor server).retreat next := by
  simp [cursor, retreated, Cursor.retreat]

@[simp] theorem cursor_retreated_of_ne (h : s ≠ server) :
    (rf.retreated server next).cursor s = rf.cursor s := by
  simp [cursor, retreated, h]

/-- The position that a request asks about. -/
def Args.probe : Args n C → Nat
  | .requestVote _ => 0
  | .appendEntries args => args.prevLogIndex
  | .installSnapshot args => args.lastIncludedIndex

/-- The position that a success confirms. -/
def Args.reach : Args n C → Nat
  | .requestVote _ => 0
  | .appendEntries args => args.prevLogIndex + args.entries.length
  | .installSnapshot args => args.lastIncludedIndex

theorem Args.probe_le_reach (args : Args n C) : args.probe ≤ args.reach := by
  cases args with
  | requestVote => exact Nat.le_refl _
  | appendEntries => exact Nat.le_add_right _ _
  | installSnapshot => exact Nat.le_refl _

/-! ### What a step does to the tables -/

/-- The tables are as they were, and nobody became a leader. -/
structure SameTables (rf rf' : Raft n C) : Prop where
  term : rf.currentTerm ≤ rf'.currentTerm
  state : rf'.state = .leader → rf.state = .leader
  me : rf'.me = rf.me
  cursor : rf'.cursor = rf.cursor

namespace SameTables

theorem refl (rf : Raft n C) : SameTables rf rf := ⟨Nat.le_refl _, id, rfl, rfl⟩

theorem of_quiet (h : Quiet rf rf') (hcursor : rf'.cursor = rf.cursor) : SameTables rf rf' where
  term := by
    rcases h.ballot with hsame | hhigher | hreset
    · exact Nat.le_of_eq hsame.term.symm
    · exact Nat.le_of_lt hhigher.term
    · exact Nat.le_of_eq hreset.term.symm
  state hlead := by
    rcases h.state with heq | heq
    · exact heq ▸ hlead
    · rw [heq] at hlead
      cases hlead
  me := h.me
  cursor := hcursor

theorem stepDown {term : Nat} (h : rf.currentTerm < term) :
    SameTables rf (rf.stepDown term).persist :=
  of_quiet (stepDown_quiet rf h).persist rfl

theorem acceptLeader_cursor (rf : Raft n C) (term : Nat) :
    (acceptLeader rf term).1.cursor = rf.cursor := by
  rw [acceptLeader_frame]
  rfl

theorem appendEntries {args : AppendEntriesArgs n C} {reply : AppendEntriesReply}
    (h : rf.appendEntries args = some (rf', reply)) : SameTables rf rf' := by
  refine of_quiet (appendEntries_quiet h) ?_
  have hacc := acceptLeader_cursor rf args.term
  rcases appendEntries_cases h with ⟨-, rfl, -⟩ | ⟨-, rfl, -⟩ | ⟨-, -, -, rf₂, appended, hmerge, rfl⟩
  · rfl
  · exact hacc
  · obtain ⟨logs, last, rfl, -⟩ := mergeEntries_shape hmerge
    obtain ⟨commit, hcommit⟩ := followCommit_shape
      { (acceptLeader rf args.term).1 with logs := logs, lastNewEntryIndex := last }
      args.leaderCommit
    rw [hcommit]
    split <;> exact hacc

theorem installSnapshot {args : InstallSnapshotArg n} {reply : InstallSnapshotReply}
    (h : rf.installSnapshot args = some (rf', reply)) : SameTables rf rf' := by
  refine of_quiet (installSnapshot_quiet h) ?_
  have hacc := acceptLeader_cursor rf args.term
  rcases installSnapshot_cases h with ⟨-, rfl, -⟩ | ⟨-, -, -, rfl⟩ | ⟨-, -, -, saved, -, rfl⟩
  · rfl
  · exact hacc
  · exact hacc

theorem requestVote (rf : Raft n C) (args : RequestVoteArgs n) :
    SameTables rf (rf.requestVote args).1 := by
  rcases requestVote_shape rf args with heq | ⟨hlt, heq⟩ | heq | ⟨hlt, heq⟩ <;> rw [heq]
  · exact refl rf
  · exact stepDown hlt
  · exact ⟨Nat.le_refl _, id, rfl, rfl⟩
  · have hdown : SameTables rf (rf.stepDown args.term).persist := stepDown hlt
    exact ⟨hdown.term, hdown.state, hdown.me, hdown.cursor⟩

theorem snapshot {index : Nat} {data : Bytes} (h : rf.snapshot index data = some rf') :
    SameTables rf rf' := by
  refine of_quiet (snapshot_steady h).1 ?_
  unfold Raft.snapshot at h
  split at h
  · cases h
    rfl
  · simp only [Option.bind_eq_bind, Option.bind_eq_some_iff, Option.pure_def,
      Option.some.injEq] at h
    obtain ⟨saved, -, rfl⟩ := h
    rfl

end SameTables

/-- What becomes of the tables of server `i`. -/
inductive TableStep (w : World n C) (i : Fin n) : Action n C → Raft n C → Prop where
  | kept {act : Action n C} {rf' : Raft n C} (h : SameTables (w.nodes i).raft rf') :
      TableStep w i act rf'
  | elected {act : Action n C} {rf' : Raft n C}
      (hdone : (w.nodes i).done (w.nodes i).raft.currentTerm = false)
      (h : rf' = (w.nodes i).raft.becomeLeader) : TableStep w i act rf'
  | confirmed {act : Action n C} {rf' : Raft n C} (c : Call n C) (hc : c ∈ w.calls)
      (hsrc : c.src = i) (hT : c.args.leaderTerm = some (w.nodes i).raft.currentTerm)
      (h : rf' = (w.nodes i).raft.confirmed c.dst c.args.reach) : TableStep w i act rf'
  | retreated {k : Nat} {rf' : Raft n C} (c : Call n C) (args : AppendEntriesArgs n C)
      (reply : AppendEntriesReply) (next : Nat) (hk : w.calls[k]? = some c) (hsrc : c.src = i)
      (hargs : c.args = .appendEntries args)
      (hreply : c.progress = .handled (.appendEntries reply))
      (hlive : (w.nodes i).epoch = c.epoch ∧ (w.nodes i).up = true)
      (hrefused : Refused (w.nodes i).raft c.dst args reply)
      (hback : backOff (w.nodes i).raft reply = some next)
      (h : rf' = (w.nodes i).raft.retreated c.dst next) : TableStep w i (.ret k) rf'
  | added {rf' : Raft n C} (command : C) (hstate : (w.nodes i).raft.state = .leader)
      (h : rf' = ((w.nodes i).raft.start command).1) : TableStep w i (.start i command) rf'

/-- What a step does to everybody's tables. -/
def TablesStep (w : World n C) (act : Action n C) (w' : World n C) : Prop :=
  ∀ i, TableStep w i act (w'.nodes i).raft

theorem TablesStep.idle (hnodes : w'.nodes = w.nodes) : TablesStep w act w' := by
  intro i
  rw [hnodes]
  exact .kept (.refl _)

/-- Nobody's tables move but server `j`'s. -/
theorem TablesStep.one {node : Node n C} (j : Fin n)
    (hnodes : w'.nodes = (w.setNode j node).nodes) (h : TableStep w j act node.raft) :
    TablesStep w act w' := by
  intro i
  rw [hnodes]
  by_cases hi : i = j
  · subst hi
    rw [setNode_self]
    exact h
  · rw [setNode_ne w node hi]
    exact .kept (.refl _)

/-- A call that returns with a reply resumes its caller. -/
theorem ret_eq_finish {c : Call n C} {reply : Reply} (hk : w.calls[k]? = some c)
    (hreply : c.progress = .handled reply) (hstep : (cluster n C).step w (.ret k) = some w') :
    w' = w.finish k c (some reply) := by
  simp only [cluster, step, hk, hreply, Option.some.injEq] at hstep
  exact hstep.symm

/-- Votes that come in after the election was decided make nobody a leader. -/
theorem leading_finish_of_done {c : Call n C} {args : RequestVoteArgs n} {reply : RequestVoteReply}
    (hargs : c.args = .requestVote args) (hgrant : reply.voteGranted = true)
    (hdone : (w.nodes c.src).done args.term = true) :
    ((w.finish k c (some (.requestVote reply))).nodes c.src).leading =
      (w.nodes c.src).leading := by
  unfold World.finish
  dsimp only
  split
  · simp [World.resume, hargs, World.voteReturned, hgrant, hdone]
  · rfl

/-- A server is elected once in a term. -/
theorem not_done_of_elected {c : Call n C} {args : RequestVoteArgs n} {reply : RequestVoteReply}
    (hk : w.calls[k]? = some c) (hargs : c.args = .requestVote args)
    (hreply : c.progress = .handled (.requestVote reply)) (hgrant : reply.voteGranted = true)
    (hstep : (cluster n C).step w (.ret k) = some
      (((w.advance k c (.returned (some (.requestVote reply)))).elect c.src).sendHeartBeat
        c.src)) : (w.nodes c.src).done args.term = false := by
  by_contra hdone
  have hfinish := ret_eq_finish hk hreply hstep
  obtain ⟨up, hnodes⟩ := elected_nodes w k c (.returned (some (.requestVote reply)))
  have hleading := leading_finish_of_done (w := w) (k := k) hargs hgrant (by simpa using hdone)
  rw [← hfinish, hnodes, setNode_self] at hleading
  -- the new leader has one more goroutine than before
  exact absurd (congrArg List.length hleading) (Nat.succ_ne_self _)

/-- A process that is down takes no notice of a reply. -/
theorem nodes_finish_of_down {c : Call n C} (k : Nat) (reply : Option Reply)
    (hdown : ¬ ((w.nodes c.src).epoch = c.epoch ∧ (w.nodes c.src).up = true)) :
    (w.finish k c reply).nodes = w.nodes := by
  have hfinish : w.finish k c reply = w.advance k c (.returned reply) := if_neg hdown
  rw [hfinish]
  rfl

theorem tableStep_appendReturned {c : Call n C} {args : AppendEntriesArgs n C}
    {reply : Option Reply} (hk : w.calls[k]? = some c) (hargs : c.args = .appendEntries args)
    (hreply : ∀ r, reply = some r → c.progress = .handled r)
    (hret : (w.nodes c.src).raft.appendEntriesReturned c.dst args (Reply.appendEntries? reply) =
      some rf')
    (hstep : (cluster n C).step w (.ret k) = some
      ((w.advance k c (.returned reply)).setRaft c.src rf')) :
    TableStep w c.src (.ret k) rf' := by
  rcases appendEntriesReturned_moves hret with ⟨hlt, rfl⟩ | rfl | ⟨hterm, -, rfl⟩ |
    ⟨hrefused, next, hback, rfl⟩
  · exact .kept (.stepDown hlt)
  · exact .kept (.refl _)
  · refine .confirmed c (List.mem_of_getElem? hk) rfl ?_ ?_
    · rw [hargs, hterm]
      rfl
    · rw [hargs]
      rfl
  · match reply, hreply, hrefused, hback, hstep with
    | some (.appendEntries r), hreply, hrefused, hback, hstep =>
      have hhandled := hreply _ rfl
      by_cases hlive : (w.nodes c.src).epoch = c.epoch ∧ (w.nodes c.src).up = true
      · exact .retreated c args r next hk rfl hargs hhandled hlive hrefused hback rfl
      · have hsame := congrFun (nodes_finish_of_down k (some (.appendEntries r)) hlive) c.src
        rw [← ret_eq_finish hk hhandled hstep, World.setRaft, setNode_self] at hsame
        refine .kept ?_
        rw [show (w.nodes c.src).raft.retreated c.dst next = (w.nodes c.src).raft from
          congrArg Node.raft hsame]
        exact .refl _
    | none, _, hrefused, _, _ => cases hrefused.conflict
    | some (.requestVote _), _, hrefused, _, _ => cases hrefused.conflict
    | some (.installSnapshot _), _, hrefused, _, _ => cases hrefused.conflict

theorem tableStep_installReturned {c : Call n C} {args : InstallSnapshotArg n}
    (hc : c ∈ w.calls) (hargs : c.args = .installSnapshot args) (reply : InstallSnapshotReply) :
    TableStep w c.src act ((w.nodes c.src).raft.installSnapshotReturned c.dst args reply) := by
  rcases installSnapshotReturned_moves (w.nodes c.src).raft c.dst args reply with
    ⟨hlt, heq⟩ | heq | ⟨hterm, -, heq⟩ <;> rw [heq]
  · exact .kept (.stepDown hlt)
  · exact .kept (.refl _)
  · refine .confirmed c hc rfl ?_ ?_
    · rw [hargs, hterm]
      rfl
    · rw [hargs]
      rfl

/-- **What a step without a crash does to every server's tables.** -/
theorem tablesStep_of_step (hfree : crashFree w act)
    (hstep : (cluster n C).step w act = some w') : TablesStep w act w' := by
  cases stepped hstep with
  | idle => exact .idle rfl
  | panic j => exact .one j rfl (.kept (.refl _))
  | election j =>
    refine .one j rfl (.kept ⟨Nat.le_succ _, fun hlead => ?_, rfl, rfl⟩)
    cases hlead
  | heartBeat j =>
    obtain ⟨up, hnodes⟩ := sendHeartBeat_nodes w j
    exact .one j hnodes (.kept (.refl _))
  | replicateSnapshot => exact .idle rfl
  | replicateEntries => exact .idle rfl
  | commit j => exact .one j rfl (.kept ⟨Nat.le_refl _, id, rfl, rfl⟩)
  | requestVote k c args => exact .one c.dst rfl (.kept (.requestVote _ args))
  | appendEntries k c args _ _ _ rf reply happ => exact .one c.dst rfl (.kept (.appendEntries happ))
  | installSnapshot k c args _ _ _ rf reply hins =>
    exact .one c.dst rfl (.kept (.installSnapshot hins))
  | lose => exact .idle rfl
  | returned => exact .idle rfl
  | returnedPanic k c => exact .one c.src rfl (.kept (.refl _))
  | voteCounted k c => exact .one c.src rfl (.kept (.refl _))
  | elected k c args reply hk hargs hreply hgrant _ hterm =>
    obtain ⟨up, hnodes⟩ := elected_nodes w k c (.returned (some (.requestVote reply)))
    refine .one c.src hnodes (.elected ?_ rfl)
    rw [hterm]
    exact not_done_of_elected hk hargs hreply hgrant hstep
  | voteRefused k c args reply _ _ _ hlt => exact .one c.src rfl (.kept (.stepDown hlt))
  | appendReturned k c args reply rf hk hargs hreply _ _ hret =>
    exact .one c.src rfl (tableStep_appendReturned hk hargs hreply hret hstep)
  | installReturned k c args reply hk hargs =>
    exact .one c.src rfl (tableStep_installReturned (List.mem_of_getElem? hk) hargs _)
  | start j command =>
    refine .one j rfl ?_
    by_cases hstate : (w.nodes j).raft.state = .leader
    · exact .added command hstate rfl
    · have hsame : ((w.nodes j).raft.start command).1 = (w.nodes j).raft := by
        rw [Raft.start, if_pos hstate]
      show TableStep w j _ ((w.nodes j).raft.start command).1
      rw [hsame]
      exact .kept (.refl _)
  | snapshot j index data _ rf hsnap => exact .one j rfl (.kept (.snapshot hsnap))
  | applyTake j _ rf msgs last htake =>
    obtain ⟨_, -, heq⟩ := Option.map_eq_some_iff.mp htake
    cases heq
    exact .one j rfl (.kept ⟨Nat.le_refl _, id, rfl, rfl⟩)
  | applySend j => exact .one j rfl (.kept (.refl _))
  | applyDone j last =>
    refine .one j rfl (.kept ?_)
    cases last <;> exact ⟨Nat.le_refl _, id, rfl, rfl⟩
  | restart => cases hfree

/-! ### Who has been elected -/

/-- A leader that was not one before has just been elected, and its election is done. -/
theorem lead_of_stepped (h : Stepped w act w') {T : Nat} (hlead : Event.lead i T ∈ w'.trace) :
    Event.lead i T ∈ w.trace ∨ T = (w.nodes i).raft.currentTerm ∧ (w'.nodes i).done T = true ∧
      (w'.nodes i).raft = (w.nodes i).raft.becomeLeader := by
  cases h with
  | election | commit | applySend =>
    refine .inl ((List.mem_append.mp hlead).resolve_right fun hnew => ?_)
    cases List.mem_singleton.mp hnew
  | requestVote k c args =>
    refine (List.mem_append.mp hlead).imp_right fun hnew => ?_
    split at hnew <;> simp at hnew
  | heartBeat j =>
    rw [sendHeartBeat_trace] at hlead
    exact .inl hlead
  | elected k c args reply =>
    rw [sendHeartBeat_trace] at hlead
    refine (List.mem_append.mp hlead).imp_right fun hnew => ?_
    obtain ⟨up, hnodes⟩ := elected_nodes w k c (.returned (some (.requestVote reply)))
    cases List.mem_singleton.mp hnew
    rw [hnodes, setNode_self]
    exact ⟨rfl, Function.update_self _ _ _, rfl⟩
  | _ => exact .inl hlead

/-- An election stays done, unless its server restarts. -/
theorem done_of_stepped (h : Stepped w act w') (hfree : crashFree w act) {T : Nat}
    (hT : T ≤ (w.nodes i).raft.currentTerm) (hdone : (w.nodes i).done T = true) :
    (w'.nodes i).done T = true := by
  have hone : ∀ {j : Fin n} {node : Node n C}, (j = i → node.done T = true) →
      ((w.setNode j node).nodes i).done T = true := by
    intro j node hnode
    by_cases hi : i = j
    · subst hi
      rw [setNode_self]
      exact hnode rfl
    · rw [setNode_ne w node hi]
      exact hdone
  cases h with
  | idle | replicateSnapshot | replicateEntries | lose | returned => exact hdone
  | election j =>
    refine hone fun hj => ?_
    subst hj
    have hnew : T ≠ (w.nodes j).raft.currentTerm + 1 := by omega
    simp [World.candidate, hnew, hdone]
  | heartBeat j =>
    obtain ⟨up, hnodes⟩ := sendHeartBeat_nodes w j
    rw [hnodes]
    exact hone fun hj => hj ▸ hdone
  | elected k c args reply =>
    obtain ⟨up, hnodes⟩ := elected_nodes w k c (.returned (some (.requestVote reply)))
    rw [hnodes]
    refine hone fun hj => ?_
    subst hj
    by_cases hnow : T = (w.nodes c.src).raft.currentTerm
    · simp [World.elected, World.counted, hnow]
    · simp [World.elected, World.counted, hnow, hdone]
  | restart => cases hfree
  | _ => exact hone fun hj => hj ▸ hdone

/-! ### A leader's tables -/

/-- The server's own place is at the end of what it has, every other at or before the end of
its log, and nowhere is `NextIndex` beyond the first unconfirmed index once there is a confirmed
one. -/
structure Tables (rf : Raft n C) : Prop where
  own : rf.nextIndex rf.me = rf.matchIndex rf.me + 1
  within : ∀ s, (rf.cursor s).Within rf.lastLogIndex
  tight : ∀ s, (rf.cursor s).Tight

theorem tables_becomeLeader (rf : Raft n C) : Tables rf.becomeLeader where
  own := by simp [Raft.becomeLeader]
  within s := by
    constructor
    case next => exact Nat.le_refl _
    case matched =>
      show (if s ≠ rf.me then 0 else rf.lastLogIndex) ≤ rf.lastLogIndex
      split <;> omega
  tight s := by
    show (if s ≠ rf.me then 0 else rf.lastLogIndex) = 0 ∨ rf.lastLogIndex + 1 ≤ _
    by_cases hs : s = rf.me
    · exact .inr (by simp [cursor, Raft.becomeLeader, hs])
    · exact .inl (if_pos hs)

namespace Tables
variable (h : Tables rf)
include h

theorem same (hsame : SameTables rf rf') (hlast : rf.lastLogIndex ≤ rf'.lastLogIndex) :
    Tables rf' where
  own := by
    have hcursor := congrFun hsame.cursor rf.me
    rw [hsame.me]
    exact (congrArg Cursor.next hcursor).trans
      (h.own.trans (congrArg (· + 1) (congrArg Cursor.matched hcursor).symm))
  within s := by
    rw [hsame.cursor]
    exact (h.within s).mono hlast
  tight s := by
    rw [hsame.cursor]
    exact h.tight s

theorem confirmed {p : Nat} (hother : server ≠ rf.me) (hmade : (rf.cursor server).Made p)
    (hp : p ≤ k) (hk : k ≤ rf.lastLogIndex) : Tables (rf.confirmed server k) where
  own := by simp [Raft.confirmed, hother.symm, h.own]
  within s := by
    by_cases hs : s = server
    · subst hs
      rw [cursor_confirmed]
      exact (h.within s).confirm hk
    · rw [cursor_confirmed_of_ne hs]
      exact h.within s
  tight s := by
    by_cases hs : s = server
    · subst hs
      rw [cursor_confirmed]
      exact hmade.tight hp
    · rw [cursor_confirmed_of_ne hs]
      exact h.tight s

theorem retreated (hother : server ≠ rf.me) (hle : next ≤ rf.nextIndex server) :
    Tables (rf.retreated server next) where
  own := by simp [Raft.retreated, hother.symm, h.own]
  within s := by
    by_cases hs : s = server
    · subst hs
      rw [cursor_retreated]
      exact (h.within s).retreat hle
    · rw [cursor_retreated_of_ne hs]
      exact h.within s
  tight s := by
    by_cases hs : s = server
    · subst hs
      rw [cursor_retreated]
      exact (h.tight s).retreat hle
    · rw [cursor_retreated_of_ne hs]
      exact h.tight s

end Tables

section Start
variable (hstate : rf.state = .leader) (command : C)
include hstate

theorem start_lastLogIndex : (rf.start command).1.lastLogIndex = rf.lastLogIndex + 1 := by
  simp [Raft.start, hstate, Raft.persist, lastLogIndex]

theorem start_cursor : (rf.start command).1.cursor rf.me =
    ⟨rf.lastLogIndex + 1 + 1, rf.lastLogIndex + 1⟩ := by
  simp [Raft.start, hstate, Raft.persist, cursor]

theorem start_cursor_of_ne (hs : s ≠ rf.me) : (rf.start command).1.cursor s = rf.cursor s := by
  simp [Raft.start, hstate, Raft.persist, cursor, hs]

theorem start_me : (rf.start command).1.me = rf.me := by
  simp [Raft.start, hstate, Raft.persist]

theorem Tables.start (h : Tables rf) : Tables (rf.start command).1 := by
  have hlast := start_lastLogIndex hstate command
  have hme := start_cursor hstate command
  constructor
  case own =>
    rw [start_me hstate]
    exact (congrArg Cursor.next hme).trans (congrArg (· + 1) (congrArg Cursor.matched hme).symm)
  case within =>
    intro s
    by_cases hs : s = rf.me
    · rw [hs, hme, hlast]
      exact ⟨Nat.le_refl _, Nat.le_refl _⟩
    · rw [start_cursor_of_ne hstate command hs, hlast]
      exact (h.within s).mono (Nat.le_succ _)
  case tight =>
    intro s
    by_cases hs : s = rf.me
    · rw [hs, hme]
      exact .inr (Nat.le_refl _)
    · rw [start_cursor_of_ne hstate command hs]
      exact h.tight s

end Start

/-! ### Requests are probes -/

/-- A heartbeat names the entry before `NextIndex`, or the snapshot if that is later. -/
theorem heartBeatArgs_probe (hcont : Contiguous rf.snapshotLastIncludedIndex rf.logs)
    (hnext : rf.nextIndex s ≤ rf.lastLogIndex + 1) {args : AppendEntriesArgs n C}
    (h : heartBeatArgs rf s = some args) : rf.nextIndex s ≤ args.prevLogIndex + 1 := by
  unfold heartBeatArgs at h
  dsimp only at h
  split at h
  · simp only [Option.bind_eq_bind, Option.bind_eq_some_iff, Option.pure_def,
      Option.some.injEq] at h
    obtain ⟨prev, hat, rfl⟩ := h
    obtain ⟨hpos, hget⟩ := at?_eq_some hat
    have := hcont _ prev hget
    show rf.nextIndex s ≤ prev.index + 1
    omega
  · rename_i hsnap
    cases h
    rw [lastLogIndex_eq_endIndex hcont, endIndex] at hnext
    show rf.nextIndex s ≤ rf.snapshotLastIncludedIndex + 1
    by_cases hnil : rf.logs = []
    · simpa [hnil] using hnext
    · exact Nat.le_of_not_lt fun hlt => hsnap ⟨hnil, hlt⟩

theorem Asks.made {asked : Args n C} {T : Nat} (h : Asks rf s asked)
    (hT : asked.leaderTerm = some T)
    (hcont : Contiguous rf.snapshotLastIncludedIndex rf.logs) (htables : Tables rf) :
    (rf.cursor s).Made asked.probe := by
  have hprobe : rf.nextIndex s ≤ asked.probe + 1 := by
    cases h with
    | vote => cases hT
    | heartBeat hbeat => exact heartBeatArgs_probe hcont (htables.within s).next hbeat
    | entries hrep => exact Nat.le_of_eq (replicates_of_replicateLog hcont hrep).next.symm
    | snapshot hrep =>
      rcases replicateLog_cases hrep with heq | ⟨hle, heq⟩ | ⟨_, _, _, _, _, _, heq⟩
      · cases heq
      · cases heq
        exact Nat.le_succ_of_le hle
      · cases heq
  exact Nat.le_trans hprobe (Nat.succ_le_succ (Nat.le_max_left _ _))

end RaftLabs.Raft
