import RaftLabs.Raft.BackOff
import RaftLabs.Raft.Tables

/-! Replication bookkeeping under reordered replies.

Heartbeats and the replication loop have several requests with one `PrevLogIndex` under way, and
their replies come in any order. The leader acts on a conflict when `NextIndex` is still right
behind `PrevLogIndex`; but `NextIndex` may have been there, moved back and come again, after the
server has confirmed this very position. Such a reply takes `NextIndex` back below
`MatchIndex`. -/
namespace RaftLabs.Raft
open Lib World
variable {n : Nat} {C : Type} {w w' : World n C} {i : Fin n} {act : Action n C}
  {rf rf' : Raft n C} {s : Fin n} {k next : Nat}

/-! ### Runs without a crash -/

section Reach
variable (h : (cluster n C).Reach crashFree w)
include h

/-- A server is in the terms it was elected for, or past them. -/
theorem term_of_lead {T : Nat} (hlead : Event.lead i T ∈ w.trace) :
    T ≤ (w.nodes i).raft.currentTerm := by
  obtain ⟨-, a, hs, hrel⟩ := implements_reach (recovers_of_crashFree h)
  have hdur := ((hs.voters i).leading T (hrel.events _ hlead)).1
  rw [← (hrel.nodes i).stores.term]
  exact Nat.le_trans hdur (hs.voters i).durable_le

/-- What a success would confirm is in the leader's log. -/
theorem reach_le_last {c : Call n C} (hc : c ∈ w.calls)
    (hT : c.args.leaderTerm = some (w.nodes c.src).raft.currentTerm) :
    c.args.reach ≤ (w.nodes c.src).raft.lastLogIndex := by
  obtain ⟨-, a, hs, hrel⟩ := implements_reach (recovers_of_crashFree h)
  have hcall := hrel.calls c hc
  rw [(hrel.last_log hs c.src).2]
  cases hargs : c.args with
  | requestVote args =>
    rw [hargs] at hT
    cases hT
  | appendEntries args =>
    rw [hargs] at hT
    have hentries := (callRel_entries hargs).mp hcall
    have hterm : args.term = _ := Option.some.inj hT
    have hl := hrel.leads_of_leader hs (hterm ▸ hentries.leader)
    rw [hl.log, ← hterm]
    exact hentries.entries.length
  | installSnapshot args =>
    rw [hargs] at hT
    have hsnapshot := (callRel_snapshot hargs).mp hcall
    have hterm : args.term = _ := Option.some.inj hT
    have hl := hrel.leads_of_leader hs (hterm ▸ hsnapshot.leader)
    rw [hl.log, ← hterm]
    exact hs.covered_le_length (hterm ▸ hl.led) hsnapshot.covered

/-- While its term lasts, a leader's log does not get shorter. -/
theorem lastLogIndex_le_of_step (hfree : crashFree w act)
    (hstep : (cluster n C).step w act = some w')
    (hlead : Event.lead i (w.nodes i).raft.currentTerm ∈ w.trace)
    (hterm : (w'.nodes i).raft.currentTerm = (w.nodes i).raft.currentTerm) :
    (w.nodes i).raft.lastLogIndex ≤ (w'.nodes i).raft.lastLogIndex := by
  obtain ⟨-, a, hs, hrel⟩ := implements_reach (recovers_of_crashFree h)
  obtain ⟨a', hs', hsucc, hrel'⟩ := hrel.next hs h hfree hstep
  have hl := hrel.leads hs hlead
  have hl' := hrel'.leads_of_leader hs' (hterm ▸ hsucc.evolves.leader _ _ hl.leader)
  rw [(hrel.last_log hs i).2, (hrel'.last_log hs' i).2, hl.log, hl'.log, hterm]
  exact hsucc.evolves.length_le _

end Reach

/-! ### The invariant -/

/-- Elections are done, the tables of every leader are in order, and every request of the
caller's term is a probe that its cursor has made. -/
structure Bookkept (w : World n C) : Prop where
  done : ∀ i T, Event.lead i T ∈ w.trace → (w.nodes i).done T = true
  tables : ∀ i, Event.lead i (w.nodes i).raft.currentTerm ∈ w.trace → Tables (w.nodes i).raft
  made : ∀ c ∈ w.calls, c.args.leaderTerm = some (w.nodes c.src).raft.currentTerm →
    ((w.nodes c.src).raft.cursor c.dst).Made c.args.probe

theorem bookkept_initial : Bookkept (World.initial n C) where
  done := nofun
  tables := nofun
  made := nofun

section Step
variable (h : Bookkept w) (hreach : (cluster n C).Reach crashFree w) (hfree : crashFree w act)
  (hstep : (cluster n C).step w act = some w')
include hreach

/-- Where the leader goes on after a conflict that it acts on. -/
theorem backOff_of_refused {c : Call n C} {args : AppendEntriesArgs n C}
    {reply : AppendEntriesReply} (hc : c ∈ w.calls) (hargs : c.args = .appendEntries args)
    (hreply : c.progress = .handled (.appendEntries reply))
    (hrefused : Refused (w.nodes c.src).raft c.dst args reply) :
    reply.success = false ∧ ∃ next, backOff (w.nodes c.src).raft reply = some next ∧ 1 ≤ next ∧
      next ≤ args.prevLogIndex := by
  obtain ⟨a, hs, hrel, hl, hof, hconf⟩ :=
    conflict_of_reach hreach hc hargs hreply hrefused.conflict hrefused.term
  exact ⟨hconf.failed, backOff_le hrel hs hl hof hconf⟩

theorem back_le {c : Call n C} {args : AppendEntriesArgs n C} {reply : AppendEntriesReply}
    (hc : c ∈ w.calls) (hargs : c.args = .appendEntries args)
    (hreply : c.progress = .handled (.appendEntries reply))
    (hrefused : Refused (w.nodes c.src).raft c.dst args reply)
    (hback : backOff (w.nodes c.src).raft reply = some next) :
    1 ≤ next ∧ next ≤ args.prevLogIndex := by
  obtain ⟨-, next', hback', hbounds⟩ := backOff_of_refused hreach hc hargs hreply hrefused
  rw [hback] at hback'
  cases hback'
  exact hbounds

/-- Calls go to other servers. -/
theorem remote_of_mem {c : Call n C} (hc : c ∈ w.calls) : c.dst ≠ (w.nodes c.src).raft.me := by
  have hsafe := (implements_reach (recovers_of_crashFree hreach)).1
  rw [(hsafe.votes c.src).me]
  exact (hsafe.elections.genuine c hc).remote

/-- A leader's request is of a term it was elected for. -/
theorem lead_of_mem {c : Call n C} (hc : c ∈ w.calls) {T : Nat}
    (hT : c.args.leaderTerm = some T) : Event.lead c.src T ∈ w.trace :=
  ((implements_reach (recovers_of_crashFree hreach)).1.elections.genuine c hc).leader T hT

include h hfree hstep

theorem Bookkept.done_step {T : Nat} (hlead : Event.lead i T ∈ w'.trace) :
    (w'.nodes i).done T = true := by
  rcases lead_of_stepped (stepped hstep) hlead with hold | ⟨-, hdone, -⟩
  · exact done_of_stepped (stepped hstep) hfree (term_of_lead hreach hold) (h.done i T hold)
  · exact hdone

theorem Bookkept.tables_step
    (hlead' : Event.lead i (w'.nodes i).raft.currentTerm ∈ w'.trace) :
    Tables (w'.nodes i).raft := by
  rcases lead_of_stepped (stepped hstep) hlead' with hold | ⟨-, -, hnew⟩
  · have hle := term_of_lead hreach hold
    have hlast := fun hlead hterm => lastLogIndex_le_of_step (i := i) hreach hfree hstep hlead hterm
    have hts := tablesStep_of_step hfree hstep i
    generalize (w'.nodes i).raft = rf' at hold hle hlast hts ⊢
    cases hts with
    | kept hsame =>
      have hterm : rf'.currentTerm = (w.nodes i).raft.currentTerm :=
        Nat.le_antisymm hle hsame.term
      rw [hterm] at hold
      exact (h.tables i hold).same hsame (hlast hold hterm)
    | elected _ heq =>
      rw [heq]
      exact tables_becomeLeader _
    | confirmed c hc hsrc hT heq =>
      subst hsrc heq
      exact (h.tables c.src hold).confirmed (remote_of_mem hreach hc) (h.made c hc hT)
        c.args.probe_le_reach (reach_le_last hreach hc hT)
    | retreated c args reply next hk hsrc hargs hreply _ hrefused hback heq =>
      subst hsrc heq
      have hc := List.mem_of_getElem? hk
      obtain ⟨-, hback⟩ := back_le hreach hc hargs hreply hrefused hback
      refine (h.tables c.src hold).retreated (remote_of_mem hreach hc) ?_
      rw [hrefused.next]
      exact Nat.le_succ_of_le hback
    | added command hstate heq =>
      subst heq
      have hterm : ((w.nodes i).raft.start command).1.currentTerm =
          (w.nodes i).raft.currentTerm := by simp [Raft.start, hstate, Raft.persist]
      rw [hterm] at hold
      exact (h.tables i hold).start hstate command
  · rw [hnew]
    exact tables_becomeLeader _

/-- A probe that was under way before. -/
theorem Bookkept.made_step {c : Call n C} (hc : c ∈ w.calls)
    (hT : c.args.leaderTerm = some (w'.nodes c.src).raft.currentTerm) :
    ((w'.nodes c.src).raft.cursor c.dst).Made c.args.probe := by
  have hlead := lead_of_mem hreach hc hT
  have hle := term_of_lead hreach hlead
  have hts := tablesStep_of_step hfree hstep c.src
  generalize (w'.nodes c.src).raft = rf' at hT hlead hle hts ⊢
  cases hts with
  | kept hsame =>
    rw [Nat.le_antisymm hle hsame.term] at hT
    rw [hsame.cursor]
    exact h.made c hc hT
  | elected hdone heq =>
    -- the request would be older than the election
    subst heq
    have := h.done c.src _ hlead
    rw [show (w.nodes c.src).done (w.nodes c.src).raft.becomeLeader.currentTerm = false from
      hdone] at this
    cases this
  | confirmed d hd hsrc hTd heq =>
    subst heq
    have hold := h.made c hc hT
    by_cases hdst : c.dst = d.dst
    · rw [hdst, cursor_confirmed, ← hdst]
      exact hold.confirm _
    · rw [cursor_confirmed_of_ne hdst]
      exact hold
  | retreated d args reply next hk hsrc hargs hreply _ hrefused hback heq =>
    subst heq
    have hold := h.made c hc hT
    by_cases hdst : c.dst = d.dst
    · rw [← hsrc] at hrefused hback
      obtain ⟨-, hback⟩ := back_le hreach (List.mem_of_getElem? hk) hargs hreply hrefused hback
      have hnext := hrefused.next
      rw [hsrc, ← hdst] at hnext
      rw [hdst, cursor_retreated, ← hdst]
      refine hold.retreat ?_
      show next ≤ (w.nodes c.src).raft.nextIndex c.dst
      omega
    · rw [cursor_retreated_of_ne hdst]
      exact hold
  | added command hstate heq =>
    subst heq
    have hterm : ((w.nodes c.src).raft.start command).1.currentTerm =
        (w.nodes c.src).raft.currentTerm := by simp [Raft.start, hstate, Raft.persist]
    rw [hterm] at hT
    rw [start_cursor_of_ne hstate command (remote_of_mem hreach hc)]
    exact h.made c hc hT

theorem Bookkept.step : Bookkept w' := by
  have hreach' : (cluster n C).Reach crashFree w' := .step hreach hfree hstep
  have htables := fun j => h.tables_step hreach hfree hstep (i := j)
  constructor
  case done => exact fun i T hlead => h.done_step hreach hfree hstep hlead
  case tables => exact htables
  case made =>
    intro c hc hT
    rcases originates_of_stepped (stepped hstep) hc with ⟨c₀, hc₀, hsrc, hdst, hargs⟩ | hasks
    · rw [← hsrc, ← hargs] at hT
      rw [← hsrc, ← hdst, ← hargs]
      exact h.made_step hreach hfree hstep hc₀ hT
    · have hcont := (allPositioned (hreach'.mono fun _ _ _ _ _ => trivial)).servers c.src
      exact hasks.made hT hcont.logs (htables c.src (lead_of_mem hreach' hc hT))

end Step

theorem bookkept (h : (cluster n C).Reach crashFree w) : Bookkept w :=
  h.invariant bookkept_initial fun _ _ _ hreach hinv hfree hstep => hinv.step hreach hfree hstep

/-! ### While a term lasts -/

theorem TableStep.term_le (h : TableStep w i act rf') :
    (w.nodes i).raft.currentTerm ≤ rf'.currentTerm := by
  cases h with
  | kept hsame => exact hsame.term
  | elected _ heq | confirmed _ _ _ _ heq | retreated _ _ _ _ _ _ _ _ _ _ _ heq =>
    rw [heq]
    exact Nat.le_refl _
  | added command hstate heq =>
    rw [heq]
    simp [Raft.start, hstate, Raft.persist]

/-- Nothing that is confirmed is forgotten in a step. -/
theorem matchIndex_le_of_step (h : (cluster n C).Reach crashFree w) (hfree : crashFree w act)
    (hstep : (cluster n C).step w act = some w')
    (hlead : Event.lead i (w.nodes i).raft.currentTerm ∈ w.trace) (s : Fin n) :
    (w.nodes i).raft.matchIndex s ≤ (w'.nodes i).raft.matchIndex s := by
  have hinv := bookkept h
  have hts := tablesStep_of_step hfree hstep i
  generalize (w'.nodes i).raft = rf' at hts ⊢
  cases hts with
  | kept hsame => exact Nat.le_of_eq (congrArg Cursor.matched (congrFun hsame.cursor s)).symm
  | elected hdone _ =>
    rw [hinv.done i _ hlead] at hdone
    cases hdone
  | confirmed c _ _ _ heq =>
    subst heq
    by_cases hs : s = c.dst
    · subst hs
      simp [Raft.confirmed]
    · simp [Raft.confirmed, hs]
  | retreated _ _ _ _ _ _ _ _ _ _ _ heq =>
    subst heq
    exact Nat.le_refl _
  | added command hstate heq =>
    subst heq
    by_cases hs : s = (w.nodes i).raft.me
    · subst hs
      have hnew := congrArg Cursor.matched (start_cursor hstate command)
      have hold := ((hinv.tables i hlead).within (w.nodes i).raft.me).matched
      refine Nat.le_trans hold (Nat.le_trans (Nat.le_succ _) (Nat.le_of_eq ?_))
      exact hnew.symm
    · exact Nat.le_of_eq (congrArg Cursor.matched (start_cursor_of_ne hstate command hs)).symm

/-- **A leader never forgets what is confirmed**, as long as its term lasts. -/
theorem matchIndex_le_later (h : (cluster n C).Reach crashFree w)
    (hlead : Event.lead i (w.nodes i).raft.currentTerm ∈ w.trace)
    (hlater : ((cluster n C).startingAt w).Reach crashFree w')
    (hterm : (w'.nodes i).raft.currentTerm = (w.nodes i).raft.currentTerm) (s : Fin n) :
    (w.nodes i).raft.matchIndex s ≤ (w'.nodes i).raft.matchIndex s := by
  have hinv := hlater.invariant (P := fun w' =>
      (w.nodes i).raft.currentTerm ≤ (w'.nodes i).raft.currentTerm ∧
      ((w'.nodes i).raft.currentTerm = (w.nodes i).raft.currentTerm →
        Event.lead i (w'.nodes i).raft.currentTerm ∈ w'.trace ∧
        (w.nodes i).raft.matchIndex s ≤ (w'.nodes i).raft.matchIndex s))
    ⟨Nat.le_refl _, fun _ => ⟨hlead, Nat.le_refl _⟩⟩ ?_
  · exact (hinv.2 hterm).2
  · intro w₁ act w₂ hreach ⟨hle, hkept⟩ hfree hstep
    have hle' := (tablesStep_of_step hfree hstep i).term_le
    refine ⟨Nat.le_trans hle hle', fun hsame => ?_⟩
    -- the term has not changed in between either
    have hbetween : (w₁.nodes i).raft.currentTerm = (w.nodes i).raft.currentTerm := by omega
    obtain ⟨hlead₁, hmatch⟩ := hkept hbetween
    have hreach₁ := System.reach_startingAt h hreach
    obtain ⟨events, htrace⟩ := (stepped hstep).trace
    refine ⟨?_, Nat.le_trans hmatch (matchIndex_le_of_step hreach₁ hfree hstep hlead₁ s)⟩
    rw [htrace, hsame, ← hbetween]
    exact List.mem_append_left _ hlead₁

/-! ### Stale conflicts -/

/-- If the reply is a conflict that the server, a leader, acts on, then it is news: `dst` has not
confirmed this position since. -/
def News (node : Node n C) (epoch : Nat) (dst : Fin n) : Args n C → Progress → Prop
  | .appendEntries args, .handled (.appendEntries reply) =>
    node.epoch = epoch ∧ node.up = true ∧ node.raft.state = .leader ∧
      Refused node.raft dst args reply → node.raft.matchIndex dst < args.prevLogIndex
  | _, _ => True

instance (node : Node n C) (epoch : Nat) (dst : Fin n) :
    (args : Args n C) → (progress : Progress) → Decidable (News node epoch dst args progress)
  | .appendEntries args, .handled (.appendEntries reply) =>
    inferInstanceAs (Decidable (node.epoch = epoch ∧ node.up = true ∧ node.raft.state = .leader ∧
      Refused node.raft dst args reply → node.raft.matchIndex dst < args.prevLogIndex))
  | .appendEntries _, .sent | .appendEntries _, .lost | .appendEntries _, .returned _
  | .appendEntries _, .handled (.requestVote _) | .appendEntries _, .handled (.installSnapshot _)
  | .requestVote _, _ | .installSnapshot _, _ => isTrue trivial

/-- The step restarts no server, and a conflict that a leader acts on is news to it. -/
def refusesOnce (w : World n C) (act : Action n C) : Prop :=
  crashFree w act ∧ match act with
    | .ret k => ∀ c ∈ w.calls[k]?, News (w.nodes c.src) c.epoch c.dst c.args c.progress
    | _ => True

instance (w : World n C) : (act : Action n C) → Decidable (refusesOnce w act)
  | .ret k => inferInstanceAs (Decidable (crashFree w (.ret k) ∧
      ∀ c ∈ w.calls[k]?, News (w.nodes c.src) c.epoch c.dst c.args c.progress))
  | .restart _ => isFalse fun h => h.1
  | .electionTimeout _ | .heartBeat _ | .replicateLog _ _ _ | .updateCommitIndex _ _ | .handle _
  | .lose _ | .start _ _ | .snapshot _ _ _ | .applyTake _ | .applySend _
  | .applyDone _ => isTrue ⟨trivial, trivial⟩

theorem crashFree_of_refusesOnce (h : (cluster n C).Reach refusesOnce w) :
    (cluster n C).Reach crashFree w :=
  h.mono fun _ _ _ _ hok => hok.1

/-- Every leader has all tables in order: what is confirmed lies before the next attempt, and
that not beyond the end of the log. -/
def TablesOrdered (w : World n C) : Prop :=
  ∀ i, (w.nodes i).raft.state = .leader → ∀ s,
    (w.nodes i).raft.matchIndex s < (w.nodes i).raft.nextIndex s ∧
    (w.nodes i).raft.nextIndex s ≤ (w.nodes i).raft.lastLogIndex + 1

theorem lead_of_leader (h : (cluster n C).Reach crashFree w)
    (hstate : (w.nodes i).raft.state = .leader) :
    Event.lead i (w.nodes i).raft.currentTerm ∈ w.trace :=
  (implements_reach (recovers_of_crashFree h)).1.elections.role i hstate

/-- Whatever the replies, `NextIndex` stays inside the log or right behind it. -/
theorem nextIndex_le (h : (cluster n C).Reach crashFree w)
    (hlead : Event.lead i (w.nodes i).raft.currentTerm ∈ w.trace) (s : Fin n) :
    (w.nodes i).raft.nextIndex s ≤ (w.nodes i).raft.lastLogIndex + 1 :=
  (((bookkept h).tables i hlead).within s).next

section Ordered
variable (h : (cluster n C).Reach crashFree w)
include h

/-- A refusal that a leader acts on, as a move of its cursor. -/
theorem ordered_retreated_iff {c : Call n C} {args : AppendEntriesArgs n C}
    {reply : AppendEntriesReply} (hc : c ∈ w.calls) (hargs : c.args = .appendEntries args)
    (hreply : c.progress = .handled (.appendEntries reply))
    (hrefused : Refused (w.nodes c.src).raft c.dst args reply)
    (hback : backOff (w.nodes c.src).raft reply = some next) :
    (((w.nodes c.src).raft.cursor c.dst).retreat next).Ordered ↔
      (w.nodes c.src).raft.matchIndex c.dst < args.prevLogIndex := by
  obtain ⟨hpos, hle⟩ := back_le h hc hargs hreply hrefused hback
  have hlead : Event.lead c.src (w.nodes c.src).raft.currentTerm ∈ w.trace := by
    refine lead_of_mem h hc ?_
    rw [hargs, hrefused.term]
    rfl
  exact Cursor.ordered_retreat_iff (((bookkept h).tables c.src hlead).tight c.dst) hrefused.next
    hpos hle

theorem tablesOrdered_step (hord : TablesOrdered w) (hok : refusesOnce w act)
    (hstep : (cluster n C).step w act = some w') : TablesOrdered w' := by
  intro i hstate s
  have hreach' : (cluster n C).Reach crashFree w' := .step h hok.1 hstep
  refine ⟨?_, nextIndex_le hreach' (lead_of_leader hreach' hstate) s⟩
  show ((w'.nodes i).raft.cursor s).Ordered
  have hold : (w.nodes i).raft.state = .leader → ((w.nodes i).raft.cursor s).Ordered :=
    fun hlead => (hord i hlead s).1
  have hts := tablesStep_of_step hok.1 hstep i
  generalize (w'.nodes i).raft = rf' at hstate hts ⊢
  cases hts with
  | kept hsame =>
    rw [hsame.cursor]
    exact hold (hsame.state hstate)
  | elected _ heq =>
    rw [heq]
    exact Nat.lt_succ_of_le ((tables_becomeLeader (w.nodes i).raft).within s).matched
  | confirmed c _ _ _ heq =>
    subst heq
    by_cases hs : s = c.dst
    · subst hs
      rw [cursor_confirmed]
      exact (hold hstate).confirm _
    · rw [cursor_confirmed_of_ne hs]
      exact hold hstate
  | retreated c args reply next hk hsrc hargs hreply hlive hrefused hback heq =>
    subst heq hsrc
    by_cases hs : s = c.dst
    · subst hs
      rw [cursor_retreated]
      refine (ordered_retreated_iff h (List.mem_of_getElem? hk) hargs hreply hrefused hback).mpr ?_
      have hnews := hok.2 c hk
      rw [hargs, hreply] at hnews
      exact hnews ⟨hlive.1, hlive.2, hstate, hrefused⟩
    · rw [cursor_retreated_of_ne hs]
      exact hold hstate
  | added command hleads heq =>
    subst heq
    by_cases hs : s = (w.nodes i).raft.me
    · rw [hs, start_cursor hleads]
      exact Nat.lt_succ_self _
    · rw [start_cursor_of_ne hleads command hs]
      exact hold hleads

omit h in
/-- The caller of a refused request moves its cursor back. -/
theorem finish_refused {c : Call n C} {args : AppendEntriesArgs n C} {reply : AppendEntriesReply}
    (hargs : c.args = .appendEntries args)
    (hlive : (w.nodes c.src).epoch = c.epoch ∧ (w.nodes c.src).up = true)
    (hrefused : Refused (w.nodes c.src).raft c.dst args reply) (hfailed : reply.success = false)
    (hback : backOff (w.nodes c.src).raft reply = some next) :
    ((w.finish k c (some (.appendEntries reply))).nodes c.src).raft =
      (w.nodes c.src).raft.retreated c.dst next := by
  have hret : (w.nodes c.src).raft.appendEntriesReturned c.dst args reply =
      some ((w.nodes c.src).raft.retreated c.dst next) := by
    simp [appendEntriesReturned, hrefused.replyTerm, hrefused.term, hrefused.conflict,
      hrefused.next, hfailed, hback, Raft.retreated]
  simp [World.finish, hlive, World.resume, hargs, Reply.appendEntries?, hret, World.setRaft]

/-- A stale conflict takes `NextIndex` back to what is confirmed, or below it. -/
theorem refusesOnce_of_ordered (hfree : crashFree w act)
    (hstep : (cluster n C).step w act = some w') (hord : TablesOrdered w') :
    refusesOnce w act := by
  refine ⟨hfree, ?_⟩
  cases act with
  | ret k =>
    intro c hk
    have hc := List.mem_of_getElem? hk
    cases hargs : c.args with
    | requestVote | installSnapshot => trivial
    | appendEntries args =>
      cases hreply : c.progress with
      | sent | lost | returned => trivial
      | handled answer =>
        cases answer with
        | requestVote | installSnapshot => trivial
        | appendEntries reply =>
          rintro ⟨hepoch, hup, hstate, hrefused⟩
          obtain ⟨hfailed, next, hback, -⟩ := backOff_of_refused h hc hargs hreply hrefused
          have hraft := finish_refused (k := k) hargs ⟨hepoch, hup⟩ hrefused hfailed hback
          rw [← ret_eq_finish hk hreply hstep] at hraft
          refine (ordered_retreated_iff h hc hargs hreply hrefused hback).mp ?_
          have hsrc := (hord c.src (by rw [hraft]; exact hstate) c.dst).1
          rw [hraft] at hsrc
          rw [← cursor_retreated]
          exact hsrc
  | _ => trivial

end Ordered

theorem tablesOrdered (h : (cluster n C).Reach refusesOnce w) : TablesOrdered w := by
  refine h.invariant (fun _ hstate => nomatch hstate) fun w act w' hreach hord hok hstep => ?_
  exact tablesOrdered_step (crashFree_of_refusesOnce hreach) hord hok hstep

theorem recovers_of_refusesOnce (h : (cluster n C).Reach refusesOnce w) :
    (cluster n C).Reach recovers w :=
  recovers_of_crashFree (crashFree_of_refusesOnce h)

/-- **Replication bookkeeping.** In every timely run without a crash whose leaders act on no stale
conflict, the tables of every leader are in order and never forget while its term lasts, and a
further step keeps them in order exactly when it acts on no stale conflict either. -/
theorem tables_in_order {x : InMemory (World n C) n C}
    (h : (processes n C).Reach (timely refusesOnce) x) :
    TablesOrdered x.state ∧
    (∀ x', ((processes n C).startingAt x).Reach (timely crashFree) x' → ∀ i,
      (x.state.nodes i).raft.state = .leader →
      (x'.state.nodes i).raft.currentTerm = (x.state.nodes i).raft.currentTerm →
      ∀ s, (x.state.nodes i).raft.matchIndex s ≤ (x'.state.nodes i).raft.matchIndex s) ∧
    ∀ a x', timely crashFree x a → (processes n C).step x a = some x' →
      (TablesOrdered x'.state ↔ refusesOnce x.state a.act) := by
  have honce := reach_of_timely (fun _ => recovers_of_refusesOnce) h
  have hord := tablesOrdered honce
  have hreach := crashFree_of_refusesOnce honce
  refine ⟨hord, fun x' hlater i hstate hterm s => ?_, fun a x' hok hstep => ?_⟩
  · have hfree : (processes n C).Reach (timely crashFree) x :=
      h.mono fun _ _ _ _ hok => ⟨hok.1.1, hok.2⟩
    have hlater := later_of_timely (fun _ => recovers_of_crashFree) hfree hlater
    exact matchIndex_le_later hreach (lead_of_leader hreach hstate) hlater hterm s
  · have hstep := step_of_timely (fun _ => recovers_of_refusesOnce) h hok.2 hstep
    exact ⟨refusesOnce_of_ordered hreach hok.1 hstep,
      fun honce => tablesOrdered_step hreach hord honce hstep⟩

/-- Server `i` leads term 1 and gets an entry to server `j`, which leads term 2. Server `k`, whose
log is empty, refuses two heartbeats with the same predecessor. The first reply takes server `j`
back, and server `k` then confirms the entry. -/
def refusedTwice (i j k : Fin n) : List (Action n Nat) :=
  [.electionTimeout i, .handle 0, .ret 0, .start i 10, .replicateLog i j 1, .handle 4,
   .electionTimeout j, .handle 6, .ret 6, .handle 8, .heartBeat j, .handle 10, .ret 8,
   .replicateLog j k 2, .handle 11, .ret 11]

theorem refusedTwice_runs :
    (((processes 3 Nat).runWhere (timely refusesOnce) (processes 3 Nat).init
        (scheduled [] (refusedTwice 0 1 2))).map fun x =>
      decide ((x.state.nodes 1).raft.state = .leader ∧ (x.state.nodes 1).raft.matchIndex 2 = 1 ∧
        (x.state.nodes 1).raft.nextIndex 2 = 2)) = some true := by
  decide +kernel

theorem tables_in_order_refusedTwice : ∃ x : InMemory (World 3 Nat) 3 Nat,
    (processes 3 Nat).Reach (timely refusesOnce) x ∧
    (x.state.nodes 1).raft.state = .leader ∧ (x.state.nodes 1).raft.matchIndex 2 = 1 ∧
    TablesOrdered x.state ∧
    (∀ x', ((processes 3 Nat).startingAt x).Reach (timely crashFree) x' → ∀ i,
      (x.state.nodes i).raft.state = .leader →
      (x'.state.nodes i).raft.currentTerm = (x.state.nodes i).raft.currentTerm →
      ∀ s, (x.state.nodes i).raft.matchIndex s ≤ (x'.state.nodes i).raft.matchIndex s) ∧
    ∀ a x', timely crashFree x a → (processes 3 Nat).step x a = some x' →
      (TablesOrdered x'.state ↔ refusesOnce x.state a.act) := by
  obtain ⟨x, hreach, hstate, hmatch, -⟩ := System.exists_reach_of_runWhere refusedTwice_runs
  exact ⟨x, hreach, hstate, hmatch, tables_in_order hreach⟩

/-- The second refusal arrives after the confirmation. -/
theorem refusedTwice_falls :
    (((processes 3 Nat).runWhere (timely crashFree) (processes 3 Nat).init
        (scheduled [] (refusedTwice 0 1 2 ++ [.ret 10]))).map fun x =>
      decide ((x.state.nodes 1).raft.state = .leader ∧ (x.state.nodes 1).raft.matchIndex 2 = 1 ∧
        (x.state.nodes 1).raft.nextIndex 2 = 1)) = some true := by
  decide +kernel

/-- Without the condition a stale conflict takes `NextIndex` back to `MatchIndex`. -/
theorem tables_out_of_order : ¬ ∀ x : InMemory (World 3 Nat) 3 Nat,
    (processes 3 Nat).Reach (timely crashFree) x → TablesOrdered x.state := by
  intro hall
  obtain ⟨x, hreach, hstate, hmatch, hnext⟩ := System.exists_reach_of_runWhere refusedTwice_falls
  have hlt := (hall x hreach 1 hstate 2).1
  rw [hmatch, hnext] at hlt
  exact absurd hlt (by decide)

/-- Server `a` leads term 1, gets its two entries to server `c` and has a request with both for
server `e`. Server `c` leads term 2. Server `b` leads term 3 and shifts the array of server `a`, so
that server `e` gets entries at indices 1 and 4. In answer to server `c` it then names index 4. -/
def answersBeyond (a b c d e f g : Fin n) : List (Scheduled (Action n Nat)) := List.flatten
  [scheduled []
    [.electionTimeout a, .handle 0, .handle 1, .handle 2, .ret 0, .ret 1, .ret 2, .start a 10,
     .start a 11, .replicateLog a c 1, .handle 12, .replicateLog a e 1],   -- call 13
   scheduled [13]
    [.electionTimeout c, .handle 16, .handle 18, .handle 19, .ret 16, .ret 18, .ret 19,
     .electionTimeout b, .electionTimeout b, .handle 34, .handle 36, .handle 37, .ret 34, .ret 36,
     .ret 37, .start b 30, .replicateLog b a 3, .handle 44, .start b 31, .start b 32,
     .replicateLog b d 3, .replicateLog b f 3, .replicateLog b g 3, .handle 45, .handle 46,
     .handle 47, .ret 45, .ret 46, .ret 47, .updateCommitIndex b 3, .applyTake b, .applySend b,
     .applySend b, .applySend b, .snapshot b 3 [], .replicateLog b a 3, .handle 48, .ret 48,
     .start b 33, .replicateLog b a 3, .handle 49],
   scheduled [] [.handle 13, .handle 23, .heartBeat c, .handle 53, .ret 53]]

theorem answersBeyond_runs :
    (((processes 7 Nat).runWhere (anytime refusesOnce) (processes 7 Nat).init
        (answersBeyond 0 1 2 3 4 5 6)).map fun x =>
      decide ((x.state.nodes 2).raft.state = .leader ∧ (x.state.nodes 2).raft.nextIndex 4 = 4 ∧
        (x.state.nodes 2).raft.lastLogIndex = 2)) = some true := by
  decide +kernel

/-- And a log with a gap takes `NextIndex` past the log of the leader. -/
theorem tables_out_of_order_of_shifted : ¬ ∀ x : InMemory (World 7 Nat) 7 Nat,
    (processes 7 Nat).Reach (anytime refusesOnce) x → TablesOrdered x.state := by
  intro hall
  obtain ⟨x, hreach, hstate, hnext, hlast⟩ := System.exists_reach_of_runWhere answersBeyond_runs
  have hle := (hall x hreach 2 hstate 4).2
  rw [hnext, hlast] at hle
  exact absurd hle (by decide)

end RaftLabs.Raft
