import RaftLabs.Raft.Safety
import RaftLabs.Raft.ServerSteps

/-! The entries that servers retain.

What a server keeps past its snapshot is a slice of the log of the leader whose term its last
entry has. So two servers that retain one entry retain the same entries below it, and the terms
of one server's entries are sorted. The snapshot need not fit in: `InstallSnapshot` keeps what
follows the snapshot's index, also when it is older than the snapshot. -/
namespace RaftLabs.Raft
open Lib World ReplicatedLog
variable {n : Nat} {C : Type} {w w' : World n C} {i j : Fin n} {act : Action n C}
  {rf rf' : Raft n C} {a : Ghost n C}

/-! ### Slices of leaders' logs -/

section Slices
variable (h : Rel w a) (hs : a.Sound RaftLogEntry.term)
include h

theorem Rel.entryAt_eq {k : Nat} (hk : (w.nodes i).raft.snapshotLastIncludedIndex < k) :
    (w.nodes i).raft.entryAt k = (a.voter i).log[k - 1]? := by
  rw [entryAt, if_pos hk, h.logs_getElem?]
  congr 1
  omega

include hs

theorem Rel.entryAt_index {e : RaftLogEntry C} (he : e ∈ (w.nodes i).raft.logs) :
    (w.nodes i).raft.snapshotLastIncludedIndex < e.index ∧
      (w.nodes i).raft.entryAt e.index = some e := by
  obtain ⟨p, hp⟩ := List.getElem?_of_mem he
  have hindex := h.contiguous hs i p e hp
  have hlt : (w.nodes i).raft.snapshotLastIncludedIndex < e.index := by omega
  refine ⟨hlt, ?_⟩
  rw [entryAt, if_pos hlt, ← hp]
  congr 1
  omega

/-- Below an entry it retains, a server has what the leader of the entry's term has. -/
theorem Rel.entryAt_leaderLog {e : RaftLogEntry C} (he : e ∈ (w.nodes i).raft.logs) {k : Nat}
    (hlt : (w.nodes i).raft.snapshotLastIncludedIndex < k) (hle : k ≤ e.index) :
    (w.nodes i).raft.entryAt k = (a.leaderLog e.term)[k - 1]? := by
  obtain ⟨hpos, hat⟩ := h.entryAt_index hs he
  have hsnap := (h.nodes i).stores.snap
  rw [h.entryAt_eq hpos] at hat
  rw [h.entryAt_eq hlt]
  have hagree := ((hs.voters i).retained (e.index - 1) e hat (by omega)).2
  exact hagree (k - 1) (by omega) (by omega)

/-- The terms of the entries are sorted. -/
theorem Rel.term_le {e e' : RaftLogEntry C} (he : e ∈ (w.nodes i).raft.logs)
    (he' : e' ∈ (w.nodes i).raft.logs) (hle : e.index ≤ e'.index) : e.term ≤ e'.term := by
  obtain ⟨hpos, hat⟩ := h.entryAt_index hs he
  rw [h.entryAt_leaderLog hs he' hpos hle] at hat
  exact hs.term_le hat

theorem Rel.entry_term_le {e : RaftLogEntry C} (he : e ∈ (w.nodes i).raft.logs) :
    e.term ≤ (w.nodes i).raft.currentTerm := by
  obtain ⟨hpos, hat⟩ := h.entryAt_index hs he
  rw [h.entryAt_eq hpos] at hat
  have hle := Nat.le_trans (hs.entry_term_le hat) (hs.voters i).durable_le
  rwa [(h.nodes i).stores.term] at hle

theorem Rel.snapTerm_le :
    (w.nodes i).raft.snapshotLastIncludedTerm ≤ (w.nodes i).raft.currentTerm := by
  have hst := (h.nodes i).stores
  rw [← hst.snapTerm, ← hst.term]
  by_cases hzero : (a.voter i).snap = 0
  · rw [hzero, List.take_zero]
    exact Nat.zero_le _
  · obtain ⟨e, he, hterm⟩ := lastTerm_take (Nat.pos_of_ne_zero hzero) (hs.voters i).snap_le
    rw [hterm]
    exact Nat.le_trans (hs.entry_term_le he) (hs.voters i).durable_le

end Slices

/-! ### Log matching -/

/-- Servers that retain entries with one index and one term agree on these entries and on
everything below that both retain. -/
def LogsMatch (w : World n C) : Prop :=
  ∀ i j e e', e ∈ (w.nodes i).raft.logs → e' ∈ (w.nodes j).raft.logs →
    e.index = e'.index → e.term = e'.term →
    e.command = e'.command ∧ ∀ k, (w.nodes i).raft.snapshotLastIncludedIndex < k →
      (w.nodes j).raft.snapshotLastIncludedIndex < k → k < e.index →
      ∃ x, (w.nodes i).raft.entryAt k = some x ∧ (w.nodes j).raft.entryAt k = some x ∧
        x.index = k

theorem Rel.logsMatch (hrel : Rel w a) (hs : a.Sound RaftLogEntry.term) : LogsMatch w := by
  intro i j e e' he he' hindex hterm
  obtain ⟨hlt, hat⟩ := hrel.entryAt_index hs he
  obtain ⟨hlt', hat'⟩ := hrel.entryAt_index hs he'
  refine ⟨?_, fun k hi hj hk => ?_⟩
  · -- both entries are the leader's at that index
    rw [hrel.entryAt_leaderLog hs he hlt (Nat.le_refl _), hterm, hindex,
      ← hrel.entryAt_leaderLog hs he' hlt' (Nat.le_refl _), hat'] at hat
    rw [Option.some.inj hat]
  · have hsame : (w.nodes j).raft.entryAt k = (w.nodes i).raft.entryAt k := by
      rw [hrel.entryAt_leaderLog hs he hi (Nat.le_of_lt hk), hterm,
        hrel.entryAt_leaderLog hs he' hj (by omega)]
    rw [hsame, hrel.entryAt_eq hi]
    rw [hrel.entryAt_eq hlt] at hat
    have hlen := (List.getElem?_eq_some_iff.mp hat).1
    have hx := List.getElem?_eq_getElem (by omega : k - 1 < (a.voter i).log.length)
    have hxk := hrel.log_indexed hs hx
    exact ⟨_, hx, hx, by omega⟩

/-- **Log matching** in every timely run without a crash. -/
theorem logs_match {x : InMemory (World n C) n C}
    (h : (processes n C).Reach (timely crashFree) x) : LogsMatch x.state := by
  obtain ⟨-, a, hs, hrel⟩ := implements_reach (recovers_of_crashFree
    (reach_of_timely (fun _ => recovers_of_crashFree) h))
  exact hrel.logsMatch hs

/-- Server `i` leads term 1 and replicates two entries to server `j`. -/
def replicateTwo (i j : Fin n) : List (Action n Nat) :=
  [.electionTimeout i, .handle 0, .ret 0, .start i 10, .start i 11, .replicateLog i j 1, .handle 4]

theorem replicateTwo_runs :
    (((processes 3 Nat).runWhere (timely crashFree) (processes 3 Nat).init
        (scheduled [] (replicateTwo 0 1))).map fun x =>
      decide (⟨11, 1, 2⟩ ∈ (x.state.nodes 0).raft.logs ∧ ⟨11, 1, 2⟩ ∈ (x.state.nodes 1).raft.logs ∧
        (x.state.nodes 0).raft.snapshotLastIncludedIndex = 0 ∧
        (x.state.nodes 1).raft.snapshotLastIncludedIndex = 0)) = some true := by
  decide +kernel

theorem logs_match_replicateTwo : ∃ x : InMemory (World 3 Nat) 3 Nat,
    (processes 3 Nat).Reach (timely crashFree) x ∧
    ⟨11, 1, 2⟩ ∈ (x.state.nodes 0).raft.logs ∧ ⟨11, 1, 2⟩ ∈ (x.state.nodes 1).raft.logs ∧
    ∃ e, (x.state.nodes 0).raft.entryAt 1 = some e ∧ (x.state.nodes 1).raft.entryAt 1 = some e := by
  obtain ⟨x, hreach, h0, h1, hsnap0, hsnap1⟩ := System.exists_reach_of_runWhere replicateTwo_runs
  obtain ⟨e, he0, he1, -⟩ :=
    (logs_match hreach 0 1 _ _ h0 h1 rfl rfl).2 1 (by omega) (by omega) (by decide)
  exact ⟨x, hreach, h0, h1, e, he0, he1⟩

theorem overwritten_logs :
    (((processes 7 Nat).runWhere (anytime crashFree) (processes 7 Nat).init
        (overwritten 0 1 2 6)).map
      fun x => decide ((x.state.nodes 2).raft.logs = [⟨10, 1, 1⟩, ⟨11, 1, 2⟩] ∧
        (x.state.nodes 6).raft.logs = [⟨20, 2, 1⟩, ⟨11, 1, 2⟩, ⟨12, 1, 3⟩] ∧
        (x.state.nodes 2).raft.snapshotLastIncludedIndex = 0 ∧
        (x.state.nodes 6).raft.snapshotLastIncludedIndex = 0)) = some true := by
  decide +kernel

/-- With requests encoded late, servers can share an entry above different ones. -/
theorem logs_differ : ¬ ∀ x : InMemory (World 7 Nat) 7 Nat,
    (processes 7 Nat).Reach (anytime crashFree) x → LogsMatch x.state := by
  intro hall
  obtain ⟨x, hreach, hlogs2, hlogs6, hsnap2, hsnap6⟩ :=
    System.exists_reach_of_runWhere overwritten_logs
  have hmatch := hall x hreach 2 6 ⟨11, 1, 2⟩ ⟨11, 1, 2⟩
    (by rw [hlogs2]; decide) (by rw [hlogs6]; decide) rfl rfl
  obtain ⟨e, he2, he6, -⟩ := hmatch.2 1 (by omega) (by omega) (by decide)
  simp only [entryAt, hlogs2, hlogs6, hsnap2, hsnap6] at he2 he6
  cases he2
  cases he6

/-! ### The order of terms -/

/-- From the snapshot over the log to the current term, terms do not fall. -/
def TermsOrdered (rf : Raft n C) : Prop :=
  (rf.snapshotLastIncludedTerm :: rf.logs.map (·.term) ++ [rf.currentTerm]).Pairwise (· ≤ ·)

instance (rf : Raft n C) : Decidable (TermsOrdered rf) :=
  inferInstanceAs (Decidable (List.Pairwise _ _))

/-- What the server keeps after the snapshot is not older than the snapshot. -/
def KeepsNewer (node : Node n C) (args : InstallSnapshotArg n) : Prop :=
  ∀ e ∈ node.raft.entryAt (args.lastIncludedIndex + 1), args.lastIncludedTerm ≤ e.term

instance (node : Node n C) (args : InstallSnapshotArg n) : Decidable (KeepsNewer node args) :=
  inferInstanceAs (Decidable (∀ e ∈ node.raft.entryAt (args.lastIncludedIndex + 1),
    args.lastIncludedTerm ≤ e.term))

/-- The step restarts no server and leaves no entry that is older than the snapshot before it. -/
def keepsOrder (w : World n C) (act : Action n C) : Prop :=
  crashFree w act ∧ w.handles (OnInstall KeepsNewer) act

instance (w : World n C) (act : Action n C) : Decidable (keepsOrder w act) :=
  inferInstanceAs (Decidable (crashFree w act ∧ w.handles (OnInstall KeepsNewer) act))

theorem crashFree_of_keepsOrder (h : (cluster n C).Reach keepsOrder w) :
    (cluster n C).Reach crashFree w :=
  h.mono fun _ _ _ _ hok => hok.1

/-- The first entry is not older than the snapshot. -/
def HeadNewer (rf : Raft n C) : Prop :=
  ∀ e ∈ rf.logs.head?, rf.snapshotLastIncludedTerm ≤ e.term

/-- This is all that can go wrong. -/
theorem termsOrdered_iff (h : Rel w a) (hs : a.Sound RaftLogEntry.term) (i : Fin n) :
    TermsOrdered (w.nodes i).raft ↔ HeadNewer (w.nodes i).raft := by
  have hcont := h.contiguous hs i
  unfold TermsOrdered
  simp only [List.cons_append, List.pairwise_cons, List.pairwise_append, List.mem_append,
    List.mem_map, List.mem_singleton, List.pairwise_map]
  constructor
  · rintro ⟨hfirst, -⟩ e he
    exact hfirst e.term (.inl ⟨e, List.mem_of_mem_head? he, rfl⟩)
  · intro hhead
    refine ⟨?_, ?_, by simp, ?_⟩
    · rintro t (⟨e, he, rfl⟩ | rfl)
      · obtain ⟨first, rest, hlogs⟩ := List.exists_cons_of_ne_nil (List.ne_nil_of_mem he)
        have hmem : first ∈ (w.nodes i).raft.logs := hlogs ▸ List.mem_cons_self
        have hindex := hcont 0 first (by rw [hlogs]; rfl)
        have hlt := (h.entryAt_index hs he).1
        exact Nat.le_trans (hhead first (by rw [hlogs]; rfl)) (h.term_le hs hmem he (by omega))
      · exact h.snapTerm_le hs
    · rw [List.pairwise_iff_getElem]
      intro p q hp hq hlt
      have hpi := hcont p _ (List.getElem?_eq_getElem hp)
      have hqi := hcont q _ (List.getElem?_eq_getElem hq)
      exact h.term_le hs (List.getElem_mem hp) (List.getElem_mem hq) (by omega)
    · rintro t ⟨e, he, rfl⟩ t' rfl
      exact h.entry_term_le hs he

/-- The entry after the snapshot in a leader's log is not older than the snapshot of a server
that this leader may write to. -/
theorem Rel.snapTerm_le_leaderLog (h : Rel w a) (hs : a.Sound RaftLogEntry.term) {T : Nat}
    (hled : a.leader T ≠ none) (hT : (w.nodes i).raft.currentTerm ≤ T) {e : RaftLogEntry C}
    (he : (a.leaderLog T)[(w.nodes i).raft.snapshotLastIncludedIndex]? = some e) :
    (w.nodes i).raft.snapshotLastIncludedTerm ≤ e.term := by
  have hst := (h.nodes i).stores
  have hdur : (a.voter i).durable ≤ T :=
    Nat.le_trans (hs.voters i).durable_le (hst.term ▸ hT)
  rw [← hst.snap] at he
  rw [← hst.snapTerm, take_eq_of_agree (hs.compacted_agree hdur hled)]
  by_cases hzero : (a.voter i).snap = 0
  · rw [hzero, List.take_zero]
    exact Nat.zero_le _
  · have hlt := (List.getElem?_eq_some_iff.mp he).1
    obtain ⟨e', he', hterm⟩ := lastTerm_take (Nat.pos_of_ne_zero hzero) (Nat.le_of_lt hlt)
    rw [hterm]
    exact hs.term_mono he' he (Nat.sub_le _ _)

/-- What is left of a log that is cut at `index` starts after it. -/
theorem head?_makeRaftState {index : Nat} {saved : RaftState n C}
    (hmake : rf.makeRaftState (index + 1) = some saved)
    (hcont : Contiguous rf.snapshotLastIncludedIndex rf.logs)
    (hge : rf.snapshotLastIncludedIndex ≤ index) :
    saved.logs.head? = rf.entryAt (index + 1) := by
  rw [(makeRaftState_log hmake hcont).1, List.head?_drop, entryAt, if_pos (Nat.lt_succ_of_le hge)]
  congr 1
  omega

theorem mem_of_entryAt {k : Nat} {e : RaftLogEntry C} (h : rf.entryAt k = some e) :
    rf.snapshotLastIncludedIndex < k ∧ e ∈ rf.logs := by
  unfold entryAt at h
  split at h
  · exact ⟨‹_›, List.mem_of_getElem? h⟩
  · cases h

theorem head?_take_append {l m : List (RaftLogEntry C)} {d : Nat} (hd : 0 < d)
    (hl : d ≤ l.length) : (l.take d ++ m).head? = l.head? := by
  cases l with
  | nil => exact absurd hl (Nat.not_le.mpr hd)
  | cons first rest =>
    obtain ⟨d, rfl⟩ := Nat.exists_eq_succ_of_ne_zero (Nat.pos_iff_ne_zero.mp hd)
    rfl

section Steps
variable (hrel : Rel w a) (hs : a.Sound RaftLogEntry.term)
include hrel hs

/-- A merge that replaces the first entry replaces it with the one after the snapshot in the
leader's log. -/
theorem headNewer_merged {k : Nat} {c : Call n C} {args : AppendEntriesArgs n C} {m : Nat}
    (hk : w.calls[k]? = some c) (hargs : c.args = .appendEntries args)
    (hterm : (w.nodes i).raft.currentTerm ≤ args.term) (hm : m < args.entries.length)
    (hlo : (w.nodes i).raft.snapshotLastIncludedIndex ≤ args.prevLogIndex + m)
    (hhi : args.prevLogIndex + m ≤ (w.nodes i).raft.endIndex)
    (hhead : HeadNewer (w.nodes i).raft) {e : RaftLogEntry C}
    (he : e ∈ ((w.nodes i).raft.logs.take
      (args.prevLogIndex + m - (w.nodes i).raft.snapshotLastIncludedIndex) ++
        args.entries.drop m).head?) :
    (w.nodes i).raft.snapshotLastIncludedTerm ≤ e.term := by
  unfold endIndex at hhi
  by_cases hfirst : args.prevLogIndex + m = (w.nodes i).raft.snapshotLastIncludedIndex
  · have hcall := (callRel_entries hargs).mp (hrel.calls c (List.mem_of_getElem? hk))
    have hled : a.leader args.term ≠ none := by
      rw [hcall.leader]
      exact Option.some_ne_none _
    rw [hfirst, Nat.sub_self, List.take_zero, List.nil_append, List.head?_drop, Option.mem_def,
      hcall.entries.entries m hm, hfirst] at he
    exact hrel.snapTerm_le_leaderLog hs hled hterm he
  · rw [head?_take_append (by omega) (by omega)] at he
    exact hhead e he

/-- What follows a cut is not older than the last entry cut off. -/
theorem headNewer_compacted {index : Nat} {data : Bytes} {saved : RaftState n C}
    (hge : (w.nodes i).raft.snapshotLastIncludedIndex ≤ index)
    (hmake : (w.nodes i).raft.makeRaftState (index + 1) = some saved)
    (hhead : HeadNewer (w.nodes i).raft) :
    HeadNewer ((w.nodes i).raft.compacted index data saved) := by
  have hcont := hrel.contiguous hs i
  intro e he
  have he : saved.logs.head? = some e := he
  rw [head?_makeRaftState hmake hcont hge] at he
  obtain ⟨-, hmem⟩ := mem_of_entryAt he
  show saved.snapshotLastIncludedTerm ≤ e.term
  obtain ⟨-, -, ⟨hkept, heq⟩ | ⟨hlt, last, hlast, heq⟩⟩ := makeRaftState_log hmake hcont
  · -- nothing was cut off
    have hsame : index = (w.nodes i).raft.snapshotLastIncludedIndex := by
      rcases hkept with hnil | hle
      · rw [hnil] at hmem
        cases hmem
      · omega
    rw [heq]
    refine hhead e ?_
    rw [entryAt, if_pos (by omega), hsame] at he
    rw [List.head?_eq_getElem?, Option.mem_def, ← he]
    congr 1
    omega
  · have hindex := hcont _ last hlast
    have hnext : e.index = index + 1 := by
      rw [entryAt, if_pos (by omega)] at he
      have := hcont _ e he
      omega
    rw [heq]
    exact hrel.term_le hs (List.mem_of_getElem? hlast) hmem (by omega)

/-- What a server keeps when it takes over a snapshot starts after the snapshot. -/
theorem head?_installed {args : InstallSnapshotArg n} {saved : RaftState n C}
    (hinst : Installs (w.nodes i).raft args)
    (hmake : (acceptLeader (w.nodes i).raft args.term).1.makeRaftState
      (args.lastIncludedIndex + 1) = some saved) :
    saved.logs.head? = (w.nodes i).raft.entryAt (args.lastIncludedIndex + 1) := by
  have hacc := acceptLeader_rewrites (w.nodes i).raft args.term
  have hcont := hrel.contiguous hs i
  rw [← hacc.snap, ← hacc.logs] at hcont
  rw [head?_makeRaftState hmake hcont (by rw [hacc.snap]; exact Nat.le_of_lt hinst.2.1), entryAt,
    hacc.snap, hacc.logs, entryAt]

theorem LogStep.headNewer (h : LogStep w i act rf') (hok : w.handles (OnInstall KeepsNewer) act)
    (hhead : HeadNewer (w.nodes i).raft) : HeadNewer rf' := by
  cases h with
  | kept hr =>
    unfold HeadNewer
    rw [hr.logs, hr.snapTerm]
    exact hhead
  | merged hk hdst hargs hterm hm hlo hhi hr =>
    unfold HeadNewer
    rw [hr.logs, hr.snapTerm]
    intro e he
    exact headNewer_merged hrel hs hk hargs hterm hm hlo hhi hhead he
  | added hr =>
    unfold HeadNewer
    rw [hr.logs, hr.snapTerm]
    intro e he
    cases hlogs : (w.nodes i).raft.logs with
    | nil =>
      rw [hlogs] at he
      cases he
      exact hrel.snapTerm_le hs
    | cons first rest =>
      rw [hlogs] at he
      exact hhead e (hlogs ▸ he)
  | compacted _ hge hmake => exact headNewer_compacted hrel hs hge hmake hhead
  | @installed k c args saved hk hdst hargs hinst hmake =>
    intro e he
    have he : saved.logs.head? = some e := he
    rw [head?_installed hrel hs hinst hmake] at he
    exact hok.install hk hdst hargs hinst e he

end Steps

theorem ServerStep.headNewer {node : Node n C} {msgs : List (ApplyMsg C)}
    (h : ServerStep w i act node msgs) (hrel : Rel w a) (hs : a.Sound RaftLogEntry.term)
    (hok : keepsOrder w act) (hhead : HeadNewer (w.nodes i).raft) : HeadNewer node.raft := by
  rcases h.raft_cases with hm | ⟨_, _, heq⟩ | ⟨rfl, -⟩
  · exact hm.logStep.headNewer hrel hs hok.2 hhead
  · rw [heq]
    exact hhead
  · exact absurd hok.1 id

theorem headNewer_reach (h : (cluster n C).Reach keepsOrder w) (i : Fin n) :
    HeadNewer (w.nodes i).raft := by
  induction h with
  | init => exact fun _ he => nomatch he
  | step hreach hok hstep ih =>
    obtain ⟨-, a, hs, hrel⟩ :=
      implements_reach (recovers_of_crashFree (crashFree_of_keepsOrder hreach))
    obtain ⟨msgs, hserver, -⟩ := serverStep_of_step hstep i
    exact hserver.headNewer hrel hs hok ih

theorem termsOrdered_reach (h : (cluster n C).Reach keepsOrder w) (i : Fin n) :
    TermsOrdered (w.nodes i).raft := by
  obtain ⟨-, a, hs, hrel⟩ := implements_reach (recovers_of_crashFree (crashFree_of_keepsOrder h))
  exact (termsOrdered_iff hrel hs i).mpr (headNewer_reach h i)

/-- A server that keeps older entries than the snapshot has its terms out of order. -/
theorem keepsNewer_of_ordered (h : (cluster n C).Reach keepsOrder w)
    (hstep : (cluster n C).step w act = some w') (hterms : ∀ i, TermsOrdered (w'.nodes i).raft) :
    w.handles (OnInstall KeepsNewer) act := by
  by_contra hnot
  obtain ⟨j, args, saved, hinst, hbad, hmake, hraft⟩ := not_handles_install hstep hnot
  obtain ⟨-, a, hs, hrel⟩ := implements_reach (recovers_of_crashFree (crashFree_of_keepsOrder h))
  have hnext := hterms j
  rw [hraft] at hnext
  refine hbad fun e he => ?_
  have hfirst : e ∈ ((w.nodes j).raft.installed args saved).logs := by
    refine List.mem_of_mem_head? ?_
    show saved.logs.head? = some e
    rw [head?_installed hrel hs hinst hmake]
    exact he
  exact (List.pairwise_cons.mp hnext).1 e.term
    (List.mem_append_left _ (List.mem_map.mpr ⟨e, hfirst, rfl⟩))

/-- **Terms are ordered** on every server in a timely run without a crash in which no server keeps
entries that are older than the snapshot it takes over. A further step in time keeps the order
exactly when it is such a step. -/
theorem terms_ordered {x : InMemory (World n C) n C}
    (h : (processes n C).Reach (timely keepsOrder) x) :
    (∀ i, TermsOrdered (x.state.nodes i).raft) ∧
    ∀ a x', (processes n C).step x a = some x' → timely crashFree x a →
      (x.state.handles (OnInstall KeepsNewer) a.act ↔
        ∀ i, TermsOrdered (x'.state.nodes i).raft) := by
  have hok : ∀ w, (cluster n C).Reach keepsOrder w → (cluster n C).Reach recovers w :=
    fun _ hw => recovers_of_crashFree (crashFree_of_keepsOrder hw)
  have hreach := reach_of_timely hok h
  refine ⟨termsOrdered_reach hreach, fun a x' hstep hfree => ?_⟩
  have hstep := step_of_timely hok h hfree.2 hstep
  exact ⟨fun hkeeps => termsOrdered_reach (.step hreach ⟨hfree.1, hkeeps⟩ hstep),
    keepsNewer_of_ordered hreach hstep⟩

/-- Server `j` gets an entry of term 1, leads term 2 and adds another. -/
def twoTerms (i j : Fin n) : List (Action n Nat) :=
  [.electionTimeout i, .handle 0, .ret 0, .start i 10, .replicateLog i j 1, .handle 4,
   .electionTimeout j, .handle 5, .ret 5, .start j 11]

theorem twoTerms_runs :
    (((processes 3 Nat).runWhere (timely keepsOrder) (processes 3 Nat).init
        (scheduled [] (twoTerms 0 1))).map fun x =>
      decide ((x.state.nodes 1).raft.logs = [⟨10, 1, 1⟩, ⟨11, 2, 2⟩])) = some true := by
  decide +kernel

theorem terms_ordered_twoTerms : ∃ x : InMemory (World 3 Nat) 3 Nat,
    (processes 3 Nat).Reach (timely keepsOrder) x ∧
    (x.state.nodes 1).raft.logs = [⟨10, 1, 1⟩, ⟨11, 2, 2⟩] ∧
    TermsOrdered (x.state.nodes 1).raft := by
  obtain ⟨x, hreach, hlogs⟩ := System.exists_reach_of_runWhere twoTerms_runs
  exact ⟨x, hreach, hlogs, (terms_ordered hreach).1 1⟩

/-- Server `i` leads term 1 and has two entries that nobody else gets. Server `j` leads term 2,
commits an entry at index 1 and sends its snapshot to server `i`, which keeps its entry at
index 2. -/
def staleSuffix (i j k : Fin n) : List (Action n Nat) :=
  [.electionTimeout i, .handle 0, .ret 0, .start i 10, .start i 11,
   .electionTimeout j, .handle 5, .ret 5, .start j 20, .replicateLog j k 2, .handle 8, .ret 8,
   .updateCommitIndex j 2, .applyTake j, .applySend j, .snapshot j 1 [], .replicateLog j i 2,
   .handle 9]

theorem staleSuffix_runs :
    (((processes 3 Nat).runWhere (timely crashFree) (processes 3 Nat).init
        (scheduled [] (staleSuffix 0 1 2))).map fun x =>
      decide ((x.state.nodes 0).raft.snapshotLastIncludedTerm = 2 ∧
        (x.state.nodes 0).raft.logs = [⟨11, 1, 2⟩] ∧
        ¬ TermsOrdered (x.state.nodes 0).raft)) = some true := by
  decide +kernel

/-- Runs without a crash can leave an entry that is older than the snapshot before it, also when
all requests are encoded in time. -/
theorem terms_unordered : ¬ ∀ x : InMemory (World 3 Nat) 3 Nat,
    (processes 3 Nat).Reach (timely crashFree) x → ∀ i, TermsOrdered (x.state.nodes i).raft := by
  intro hall
  obtain ⟨x, hreach, hx⟩ := System.exists_reach_of_runWhere staleSuffix_runs
  exact hx.2.2 (hall x hreach 0)

theorem overwritten_terms :
    (((processes 7 Nat).runWhere (anytime keepsOrder) (processes 7 Nat).init
        (overwritten 0 1 2 6)).map
      fun x => decide (¬ TermsOrdered (x.state.nodes 6).raft)) = some true := by
  decide +kernel

/-- So can runs in which a request is encoded late, without any snapshot. -/
theorem terms_unordered_of_overwritten : ¬ ∀ x : InMemory (World 7 Nat) 7 Nat,
    (processes 7 Nat).Reach (anytime keepsOrder) x → ∀ i, TermsOrdered (x.state.nodes i).raft := by
  intro hall
  obtain ⟨x, hreach, hx⟩ := System.exists_reach_of_runWhere overwritten_terms
  exact hx (hall x hreach 6)

end RaftLabs.Raft
