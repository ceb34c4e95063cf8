import Mathlib.Data.List.TakeWhile
import RaftLabs.Raft.Merging
import RaftLabs.Raft.Safety

/-! How a leader backs off after a conflict.

A follower that misses the leader's predecessor entry answers with the term it has there
and the first index of that term. The leader looks for entries of the conflicting term in
its own log and goes on behind them. Nothing in the code keeps it from running off the end
of its log. The reason why it does not is log matching: an entry of the conflicting term at
or behind `PrevLogIndex` would make the two logs equal up to `PrevLogIndex`, and then there
was no conflict. The reply may be old and the leader's log cut in the meantime, so the
argument is about the logs of the leaders of both terms, which only grow. Log matching needs
requests that are encoded in time; without them the leader does run off. -/
namespace RaftLabs.Raft
open Lib World ReplicatedLog
variable {n : Nat} {C : Type} {w w' : World n C} {a a' : Ghost n C} {i : Fin n}
  {act : Action n C} {rf : Raft n C}

/-! ### What a conflict reply says -/

/-- Looking back from position `i` ends at an entry not behind it. -/
theorem conflictIndex_cases {logs : List (RaftLogEntry C)} {prevTerm found i index : Nat}
    (h : conflictIndex logs prevTerm found i = some index) :
    index = found ∨ ∃ p ≤ i, ∃ e, logs[p]? = some e ∧ e.index = index := by
  induction i with
  | zero => exact .inl (Option.some.inj h).symm
  | succ i ih =>
    simp only [conflictIndex, Option.bind_eq_bind, Option.bind_eq_some_iff] at h
    obtain ⟨e, he, h⟩ := h
    split at h
    · obtain ⟨next, hnext, heq⟩ := Option.bind_eq_some_iff.mp h
      exact .inr ⟨i + 1, Nat.le_refl _, next, hnext, Option.some.inj heq⟩
    · rcases ih h with heq | ⟨p, hp, hrest⟩
      · exact .inl heq
      · exact .inr ⟨p, by omega, hrest⟩

/-- A conflict names an index not above `PrevLogIndex`; with a term, the server has an
entry of that other term at `PrevLogIndex`. -/
theorem checkPrev_conflict {args : AppendEntriesArgs n C} {term index : Nat}
    (hcont : Contiguous rf.snapshotLastIncludedIndex rf.logs)
    (h : checkPrev rf args = some (.conflict term index)) :
    rf.snapshotLastIncludedIndex < args.prevLogIndex ∧ index ≤ args.prevLogIndex ∧
    (term ≠ 0 → 0 < index ∧ term ≠ args.prevLogTerm ∧ ∃ e,
      rf.logs[args.prevLogIndex - rf.snapshotLastIncludedIndex - 1]? = some e ∧
        e.term = term) := by
  unfold checkPrev at h
  split at h
  · cases h
  · rename_i hsnap
    split at h
    · rename_i hend
      cases h
      exact ⟨Nat.lt_of_not_le hsnap, Nat.le_of_lt hend, fun hne => absurd rfl hne⟩
    · simp only [Option.bind_eq_bind, Option.bind_eq_some_iff] at h
      obtain ⟨e, he, h⟩ := h
      split at h
      · rename_i hterm
        simp only [Option.bind_eq_some_iff, Option.pure_def, Option.some.injEq,
          PrevCheck.conflict.injEq] at h
        obtain ⟨found, hfound, rfl, rfl⟩ := h
        have hindex := hcont _ e he
        -- the entry at `PrevLogIndex` has the term, so that the loop moves on from it
        simp only [conflictIndex, he, Option.bind_eq_bind, Option.bind_some, ne_eq,
          not_true_eq_false, if_false] at hfound
        refine ⟨Nat.lt_of_not_le hsnap, ?_, fun _ => ⟨?_, hterm, e, he, rfl⟩⟩ <;>
          rcases conflictIndex_cases hfound with heq | ⟨p, hp, e', he', heq⟩
        · omega
        · have := hcont p e' he'
          omega
        · omega
        · have := hcont p e' he'
          omega
      · cases h

/-- What a reply means as long as it is under way. The entry that conflicts is in the log of
its term's leader. -/
structure ConflictOf (a : Ghost n C) (args : AppendEntriesArgs n C) (reply : AppendEntriesReply) :
    Prop where
  failed : reply.success = false
  pos : 0 < args.prevLogIndex
  index_le : reply.conflictIndex ≤ args.prevLogIndex
  entry : reply.conflictTerm ≠ 0 → 0 < reply.conflictIndex ∧
    reply.conflictTerm ≠ args.prevLogTerm ∧ ∃ e,
      (a.leaderLog reply.conflictTerm)[args.prevLogIndex - 1]? = some e ∧
        e.term = reply.conflictTerm

theorem ConflictOf.evolve {args : AppendEntriesArgs n C} {reply : AppendEntriesReply}
    (h : ConflictOf a args reply) (ev : Evolves a a') : ConflictOf a' args reply := by
  refine ⟨h.failed, h.pos, h.index_le, fun hne => ?_⟩
  obtain ⟨hpos, hterm, e, he, heT⟩ := h.entry hne
  exact ⟨hpos, hterm, e, ev.entry he, heT⟩

/-- A server's conflict reply. -/
theorem Rel.conflictOf (h : Rel w a) (hs : a.Sound RaftLogEntry.term)
    {args : AppendEntriesArgs n C} {rf' : Raft n C} {reply : AppendEntriesReply}
    (happ : (w.nodes i).raft.appendEntries args = some (rf', reply))
    (hconflict : reply.conflict = true) : ConflictOf a args reply := by
  rcases appendEntries_cases happ with
    ⟨-, -, rfl⟩ | ⟨-, -, term, index, hcheck, rfl⟩ | ⟨-, -, rfl, -⟩
  · cases hconflict
  · rw [checkPrev_acceptLeader] at hcheck
    obtain ⟨hsnap, hle, hentry⟩ := checkPrev_conflict (h.contiguous hs i) hcheck
    refine ⟨rfl, by omega, hle, fun hne => ?_⟩
    obtain ⟨hpos, hterm, e, he, rfl⟩ := hentry hne
    refine ⟨hpos, hterm, e, ?_, rfl⟩
    -- what a server retains is in the log of the leader of its term
    have hst := (h.nodes i).stores
    rw [h.logs_getElem?, show (w.nodes i).raft.snapshotLastIncludedIndex +
      (args.prevLogIndex - (w.nodes i).raft.snapshotLastIncludedIndex - 1) =
        args.prevLogIndex - 1 by omega] at he
    have hretained := ((hs.voters i).retained _ e he (by rw [hst.snap]; omega)).2
    exact (hretained _ (by rw [hst.snap]; omega) (Nat.lt_succ_self _)).symm.trans he
  · cases hconflict

/-! ### Replies under way -/

/-- The replies to `AppendEntries` satisfy `Q`. -/
def AppendReplies (Q : AppendEntriesArgs n C → AppendEntriesReply → Prop) (w : World n C) : Prop :=
  ∀ c ∈ w.calls, ∀ args reply, c.args = .appendEntries args →
    c.progress.reply? = some (.appendEntries reply) → Q args reply

section Replies
variable {Q : AppendEntriesArgs n C → AppendEntriesReply → Prop} (h : AppendReplies Q w)
include h

/-- A call moves on and keeps its reply, or gets one that satisfies `Q`. -/
theorem AppendReplies.advance {k : Nat} {c : Call n C} (hk : w.calls[k]? = some c)
    {progress : Progress} (hp : ∀ args reply, c.args = .appendEntries args →
      progress.reply? = some (.appendEntries reply) →
      c.progress.reply? = some (.appendEntries reply) ∨ Q args reply) :
    AppendReplies Q (w.advance k c progress) := by
  intro c' hc' args reply hargs hreply
  rcases List.mem_or_eq_of_mem_set hc' with hmem | rfl
  · exact h c' hmem args reply hargs hreply
  · rcases hp args reply hargs hreply with hold | hnew
    · exact h c (List.mem_of_getElem? hk) args reply hargs hold
    · exact hnew

theorem AppendReplies.send {calls : List (Call n C)} (hnew : ∀ c ∈ calls, c.progress = .sent) :
    AppendReplies Q (w.send calls) := by
  intro c hc args reply hargs hreply
  rcases List.mem_append.mp hc with hold | hsent
  · exact h c hold args reply hargs hreply
  · rw [hnew c hsent] at hreply
    cases hreply

theorem AppendReplies.sendHeartBeat (i : Fin n) : AppendReplies Q (w.sendHeartBeat i) := by
  rcases sendHeartBeat_cases w i with heq | ⟨calls, heq, hcalls⟩ <;> rw [heq]
  · exact h
  · refine h.send fun c hc => ?_
    obtain ⟨j, args, -, -, rfl⟩ := hcalls c hc
    rfl

theorem AppendReplies.returned {k : Nat} {c : Call n C} (hk : w.calls[k]? = some c)
    {reply : Option Reply} (hreply : ∀ r, reply = some r → c.progress = .handled r) :
    AppendReplies Q (w.advance k c (.returned reply)) := by
  refine h.advance hk fun args r _ hr => .inl ?_
  rw [hreply _ hr]
  rfl

/-- Servers answer with replies that satisfy `Q`. -/
theorem AppendReplies.step (hst : Stepped w act w')
    (hanswer : ∀ (i : Fin n) args rf' reply,
      (w.nodes i).raft.appendEntries args = some (rf', reply) → Q args reply) :
    AppendReplies Q w' := by
  cases hst with
  | idle => exact h
  | panic => exact h
  | election i =>
    refine h.send fun c hc => ?_
    obtain ⟨j, -, rfl⟩ := List.mem_map.mp hc
    rfl
  | heartBeat i => exact h.sendHeartBeat i
  | replicateSnapshot i j =>
    refine h.send fun c hc => ?_
    rw [List.mem_singleton.mp hc]
    rfl
  | replicateEntries i j =>
    refine h.send fun c hc => ?_
    rw [List.mem_singleton.mp hc]
    rfl
  | commit => exact h
  | requestVote k c args hk => exact h.advance hk fun _ _ _ hr => nomatch hr
  | appendEntries k c args hk hargs _ rf' reply happ =>
    refine h.advance hk fun args' r hargs' hr => .inr ?_
    rw [hargs] at hargs'
    cases hargs'
    cases hr
    exact hanswer c.dst args rf' reply happ
  | installSnapshot k c args hk => exact h.advance hk fun _ _ _ hr => nomatch hr
  | lose k c hk => exact h.advance hk fun _ _ _ hr => nomatch hr
  | returned k c reply hk hreply => exact h.returned hk hreply
  | returnedPanic k c reply hk hreply => exact h.returned hk hreply
  | voteCounted k c args reply hk => exact h.advance hk fun _ _ _ hr => nomatch hr
  | elected k c args reply hk =>
    have hadv : AppendReplies Q (w.advance k c (.returned (some (.requestVote reply)))) :=
      h.advance hk fun _ _ _ hr => nomatch hr
    exact AppendReplies.sendHeartBeat (w := (w.advance k c _).elect c.src) hadv c.src
  | voteRefused k c args reply hk => exact h.advance hk fun _ _ _ hr => nomatch hr
  | appendReturned k c args reply rf' hk _ hreply => exact h.returned hk hreply
  | installReturned k c args reply hk _ hreply => exact h.returned hk hreply
  | start => exact h
  | snapshot => exact h
  | applyTake => exact h
  | applySend => exact h
  | applyDone => exact h
  | restart => exact h

end Replies

/-- Every conflict reply means what it says. -/
def ConflictReplies (w : World n C) (a : Ghost n C) : Prop :=
  AppendReplies (fun args reply => reply.conflict = true → ConflictOf a args reply) w

theorem exists_conflictReplies (h : (cluster n C).Reach crashFree w) :
    ∃ a : Ghost n C, a.Sound RaftLogEntry.term ∧ Rel w a ∧ ConflictReplies w a := by
  refine exists_ghost (P := ConflictReplies) (fun c hc => absurd hc List.not_mem_nil) ?_ h
  intro w a act w' a' _ hs hrel hreplies _ hstep _ hsucc _
  have hmoved : ConflictReplies w a' := fun c hc args reply hargs hreply hconflict =>
    (hreplies c hc args reply hargs hreply hconflict).evolve hsucc.evolves
  exact hmoved.step (stepped hstep) fun i args rf' reply happ hconflict =>
    (hrel.conflictOf hs happ hconflict).evolve hsucc.evolves

/-! ### Skipping a term -/

/-- The loop passes entries of the term only, and at least the first. -/
theorem skipTerm_passes {logs : List (RaftLogEntry C)} {term index : Nat}
    (h : logs.findIdx? (fun e => e.term == term) = some index) :
    index < skipTerm logs term index ∧ skipTerm logs term index ≤ logs.length ∧
    ∃ e, logs[skipTerm logs term index - 1]? = some e ∧ e.term = term := by
  obtain ⟨hlt, hterm, -⟩ := List.findIdx?_eq_some_iff_getElem.mp h
  obtain ⟨tail, htail⟩ := List.takeWhile_prefix (l := logs.drop index) (fun e => e.term == term)
  generalize hrun : (logs.drop index).takeWhile (fun e => e.term == term) = passed at htail
  have hpos : 0 < passed.length := by
    rw [← hrun, List.drop_eq_getElem_cons hlt, List.takeWhile_cons, if_pos hterm]
    exact Nat.succ_pos _
  have hlen : passed.length ≤ logs.length - index := by
    rw [← List.length_drop, ← htail, List.length_append]
    exact Nat.le_add_right _ _
  have hskip : skipTerm logs term index = index + passed.length := by rw [skipTerm, hrun]
  have hlast := List.getElem?_eq_getElem (by omega : passed.length - 1 < passed.length)
  refine ⟨by omega, by omega, passed[passed.length - 1], ?_, ?_⟩
  · rw [hskip, show index + passed.length - 1 = index + (passed.length - 1) by omega,
      ← List.getElem?_drop, ← htail, List.getElem?_append_left (by omega)]
    exact hlast
  · have hmem : passed[passed.length - 1] ∈ (logs.drop index).takeWhile
        (fun e => e.term == term) := by
      rw [hrun]
      exact List.getElem_mem _
    simpa using List.mem_takeWhile_imp hmem

section Leader
variable (h : Rel w a) (hs : a.Sound RaftLogEntry.term) {args : AppendEntriesArgs n C}
  {reply : AppendEntriesReply} (hl : Leads a i args.term) (hof : EntriesOf a args)
  (hconf : ConflictOf a args reply)
include h hs hl hof hconf

/-- The leader's entries of the conflicting term lie below `PrevLogIndex`. -/
theorem conflictTerm_below (hne : reply.conflictTerm ≠ 0) {p : Nat} {e : RaftLogEntry C}
    (he : (w.nodes i).raft.logs[p]? = some e) (hterm : e.term = reply.conflictTerm) :
    (w.nodes i).raft.snapshotLastIncludedIndex + p + 1 < args.prevLogIndex := by
  obtain ⟨-, hother, e', he', heT⟩ := hconf.entry hne
  have hpos := hconf.pos
  have hlen := hof.length
  rw [h.logs_getElem?, hl.log] at he
  by_contra hge
  -- otherwise the two leaders' logs are equal up to `PrevLogIndex`
  have hmatch := hs.matching args.term _ e he
  rw [hterm] at hmatch
  have hsame := (hmatch (args.prevLogIndex - 1) (Nat.zero_le _) (by omega)).trans he'
  obtain ⟨prev, hprev, hprevTerm⟩ := lastTerm_take hpos
    (by omega : args.prevLogIndex ≤ (a.leaderLog args.term).length)
  rw [hsame] at hprev
  cases hprev
  exact hother (heT.symm.trans (hprevTerm.symm.trans hof.prevTerm.symm))

/-- So the loop stops inside the log, not above `PrevLogIndex`. -/
theorem skipTerm_lt (hne : reply.conflictTerm ≠ 0) {index : Nat}
    (hfind : (w.nodes i).raft.logs.findIdx? (fun e => e.term == reply.conflictTerm) =
      some index) :
    skipTerm (w.nodes i).raft.logs reply.conflictTerm index < (w.nodes i).raft.logs.length ∧
    (w.nodes i).raft.snapshotLastIncludedIndex +
      skipTerm (w.nodes i).raft.logs reply.conflictTerm index < args.prevLogIndex := by
  obtain ⟨hpass, -, e, he, hterm⟩ := skipTerm_passes hfind
  have hbelow := conflictTerm_below h hs hl hof hconf hne he hterm
  have hst := (h.nodes i).stores
  have hlen := hof.length
  have hlogs : (w.nodes i).raft.logs.length =
      (a.leaderLog args.term).length - (w.nodes i).raft.snapshotLastIncludedIndex := by
    rw [← hst.logs, List.length_drop, hl.log, hst.snap]
  omega

/-- The new `NextIndex` is an index, and not above `PrevLogIndex`. -/
theorem backOff_le : ∃ next, backOff (w.nodes i).raft reply = some next ∧ 1 ≤ next ∧
    next ≤ args.prevLogIndex := by
  have hpos := hconf.pos
  have hle := hconf.index_le
  by_cases hne : reply.conflictTerm = 0
  · refine ⟨max reply.conflictIndex 1, by simp [backOff, hne], by omega, by omega⟩
  · cases hfind : (w.nodes i).raft.logs.findIdx? (fun e => e.term == reply.conflictTerm) with
    | none =>
      obtain ⟨hindex, -⟩ := hconf.entry hne
      exact ⟨reply.conflictIndex, by simp [backOff, hne, hfind], hindex, hle⟩
    | some index =>
      obtain ⟨hlt, hbelow⟩ := skipTerm_lt h hs hl hof hconf hne hfind
      have hget := List.getElem?_eq_getElem hlt
      have hindex := h.contiguous hs i _ _ hget
      refine ⟨_, ?_, Nat.succ_pos _, hbelow⟩
      simp [backOff, hne, hfind, hget, hindex]

end Leader

/-- A conflict reply of the caller's term, in a run without a crash. -/
theorem conflict_of_reach (h : (cluster n C).Reach crashFree w) {c : Call n C}
    {args : AppendEntriesArgs n C} {reply : AppendEntriesReply} (hc : c ∈ w.calls)
    (hargs : c.args = .appendEntries args)
    (hreply : c.progress = .handled (.appendEntries reply)) (hconflict : reply.conflict = true)
    (hterm : (w.nodes c.src).raft.currentTerm = args.term) :
    ∃ a : Ghost n C, a.Sound RaftLogEntry.term ∧ Rel w a ∧ Leads a c.src args.term ∧
      EntriesOf a args ∧ ConflictOf a args reply := by
  obtain ⟨a, hs, hrel, hreplies⟩ := exists_conflictReplies h
  have hcall := (callRel_entries hargs).mp (hrel.calls c hc)
  have hl : Leads a c.src args.term := by
    rw [← hterm]
    refine hrel.leads_of_leader hs ?_
    rw [hterm]
    exact hcall.leader
  exact ⟨a, hs, hrel, hl, hcall.entries,
    hreplies c hc args reply hargs (by rw [hreply]; rfl) hconflict⟩

/-- **Backing off is safe and makes progress.** In every timely run without a crash, a leader that
processes a conflict reply stays inside its log and lowers `NextIndex`, not below 1. -/
theorem conflict_backs_off {x : InMemory (World n C) n C}
    (h : (processes n C).Reach (timely crashFree) x) {k : Nat} {c : Call n C}
    {args : AppendEntriesArgs n C} {reply : AppendEntriesReply} (hk : x.state.calls[k]? = some c)
    (hargs : c.args = .appendEntries args)
    (hreply : c.progress = .handled (.appendEntries reply)) (hconflict : reply.conflict = true)
    (hreplyTerm : reply.term = (x.state.nodes c.src).raft.currentTerm)
    (hterm : (x.state.nodes c.src).raft.currentTerm = args.term)
    (hnext : (x.state.nodes c.src).raft.nextIndex c.dst = args.prevLogIndex + 1) :
    (reply.conflictTerm ≠ 0 → ∀ index,
      (x.state.nodes c.src).raft.logs.findIdx? (fun e => e.term == reply.conflictTerm) =
        some index →
      skipTerm (x.state.nodes c.src).raft.logs reply.conflictTerm index <
        (x.state.nodes c.src).raft.logs.length) ∧
    ∃ next, (x.state.nodes c.src).raft.appendEntriesReturned c.dst args reply =
        some { (x.state.nodes c.src).raft with
          nextIndex := Function.update (x.state.nodes c.src).raft.nextIndex c.dst next } ∧
      1 ≤ next ∧ next < (x.state.nodes c.src).raft.nextIndex c.dst := by
  have hreach := reach_of_timely (fun _ => recovers_of_crashFree) h
  obtain ⟨a, hs, hrel, hl, hof, hconf⟩ :=
    conflict_of_reach hreach (List.mem_of_getElem? hk) hargs hreply hconflict hterm
  refine ⟨fun hne index hfind => (skipTerm_lt hrel hs hl hof hconf hne hfind).1, ?_⟩
  obtain ⟨next, hback, hpos, hle⟩ := backOff_le hrel hs hl hof hconf
  refine ⟨next, ?_, hpos, by omega⟩
  simp [appendEntriesReturned, hreplyTerm, hterm, hconf.failed, hconflict, hnext, hback]

/-- Server `i` leads term 1 and gets one of its two entries to server `j`, which leads term 2
with an entry of its own. Server `k` takes both over and leads term 3, and server `i` refuses
its heartbeat, with an entry of term 1 where the leader has one of term 2. -/
def conflicting (i j k : Fin n) : List (Action n Nat) :=
  [.electionTimeout i, .handle 0, .ret 0, .start i 10, .replicateLog i j 1, .handle 4, .start i 11,
   .electionTimeout j, .handle 6, .ret 6, .start j 20, .replicateLog j k 2, .handle 9, .ret 9,
   .replicateLog j k 2, .handle 10, .electionTimeout k, .handle 11, .handle 12, .ret 12,
   .handle 13]

/-- Call `k` when it is an `AppendEntries` call whose reply is under way. -/
def answered (w : World n C) (k : Nat) :
    Option (Fin n × Fin n × AppendEntriesArgs n C × AppendEntriesReply) :=
  w.calls[k]?.bind fun c =>
    match c.args, c.progress with
    | .appendEntries args, .handled (.appendEntries reply) => some (c.src, c.dst, args, reply)
    | _, _ => none

theorem answered_eq_some {k : Nat} {src dst : Fin n} {args : AppendEntriesArgs n C}
    {reply : AppendEntriesReply} (h : answered w k = some (src, dst, args, reply)) :
    ∃ c, w.calls[k]? = some c ∧ c.src = src ∧ c.dst = dst ∧ c.args = .appendEntries args ∧
      c.progress = .handled (.appendEntries reply) := by
  obtain ⟨c, hk, hc⟩ := Option.bind_eq_some_iff.mp h
  split at hc
  · rename_i hargs hprogress
    cases hc
    exact ⟨c, hk, rfl, rfl, hargs, hprogress⟩
  · cases hc

theorem conflicting_runs :
    (((processes 3 Nat).runWhere (timely crashFree) (processes 3 Nat).init
        (scheduled [] (conflicting 0 1 2))).map fun x =>
      decide ((x.state.nodes 2).raft.currentTerm = 3 ∧ (x.state.nodes 2).raft.nextIndex 0 = 3 ∧
        answered x.state 13 = some (2, 0, ⟨3, 2, 2, 2, [], 0⟩, ⟨3, false, true, 1, 2⟩))) =
      some true := by
  decide +kernel

theorem conflict_backs_off_conflicting : ∃ x : InMemory (World 3 Nat) 3 Nat,
    (processes 3 Nat).Reach (timely crashFree) x ∧ (x.state.nodes 2).raft.nextIndex 0 = 3 ∧
    ∃ next, (x.state.nodes 2).raft.appendEntriesReturned 0 ⟨3, 2, 2, 2, [], 0⟩
        ⟨3, false, true, 1, 2⟩ =
        some { (x.state.nodes 2).raft with
          nextIndex := Function.update (x.state.nodes 2).raft.nextIndex 0 next } ∧
      1 ≤ next ∧ next < (x.state.nodes 2).raft.nextIndex 0 := by
  obtain ⟨x, hreach, hterm, hnext, hanswered⟩ := System.exists_reach_of_runWhere conflicting_runs
  obtain ⟨c, hk, hsrc, hdst, hargs, hreply⟩ := answered_eq_some hanswered
  have hback := conflict_backs_off hreach hk hargs hreply rfl (by rw [hsrc, hterm])
    (by rw [hsrc, hterm]) (by rw [hsrc, hdst, hnext])
  rw [hsrc, hdst] at hback
  exact ⟨x, hreach, hnext, hback.2⟩

/-- Server 6 leads term 3 with an entry of term 2 before two of term 1. Server 2 has an entry of
term 1 where the leader has the one of term 2, so the leader goes on behind its own entries of term
1: behind the end of its log. -/
theorem overwritten_conflict :
    (((processes 7 Nat).runWhere (anytime crashFree) (processes 7 Nat).init
        (List.flatten [overwritten 0 1 2 6, scheduled []
          [.electionTimeout 6, .electionTimeout 6, .handle 36, .handle 37, .handle 38, .ret 36,
           .ret 37, .ret 38, .handle 41, .heartBeat 6, .handle 47, .ret 47, .heartBeat 6,
           .handle 53]])).map fun x =>
      decide ((x.state.nodes 6).raft.currentTerm = 3 ∧ (x.state.nodes 6).raft.nextIndex 2 = 2 ∧
        (x.state.nodes 6).raft.logs = [⟨20, 2, 1⟩, ⟨11, 1, 2⟩, ⟨12, 1, 3⟩] ∧
        answered x.state 53 = some (6, 2, ⟨3, 6, 1, 2, [], 0⟩, ⟨3, false, true, 1, 1⟩))) =
      some true := by
  decide +kernel

/-- With requests encoded late, a leader can run off the end of its log. -/
theorem conflict_runs_off : ¬ ∀ x : InMemory (World 7 Nat) 7 Nat,
    (processes 7 Nat).Reach (anytime crashFree) x →
    ∀ (k : Nat) (c : Call 7 Nat) (args : AppendEntriesArgs 7 Nat) (reply : AppendEntriesReply),
      x.state.calls[k]? = some c → c.args = .appendEntries args →
      c.progress = .handled (.appendEntries reply) → reply.conflict = true →
      reply.term = (x.state.nodes c.src).raft.currentTerm →
      (x.state.nodes c.src).raft.currentTerm = args.term →
      (x.state.nodes c.src).raft.nextIndex c.dst = args.prevLogIndex + 1 →
      reply.conflictTerm ≠ 0 → ∀ index,
      (x.state.nodes c.src).raft.logs.findIdx? (fun e => e.term == reply.conflictTerm) =
        some index →
      skipTerm (x.state.nodes c.src).raft.logs reply.conflictTerm index <
        (x.state.nodes c.src).raft.logs.length := by
  intro hall
  obtain ⟨x, hreach, hterm, hnext, hlogs, hanswered⟩ :=
    System.exists_reach_of_runWhere overwritten_conflict
  obtain ⟨c, hk, hsrc, hdst, hargs, hreply⟩ := answered_eq_some hanswered
  have hlt := hall x hreach 53 c _ _ hk hargs hreply rfl
    (by rw [hsrc, hterm]) (by rw [hsrc, hterm]) (by rw [hsrc, hdst, hnext]) (by decide) 1
    (by rw [hsrc, hlogs]; decide)
  rw [hsrc, hlogs] at hlt
  exact absurd hlt (by decide)

end RaftLabs.Raft
