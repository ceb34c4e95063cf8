import RaftLabs.Raft.Durability

/-! What late encoding leaves alone.

Votes, elections and terms do not depend on the entries that requests carry, nor on what `applyLog`
finds behind the end of a log. What was shown of them on values therefore holds on arrays, whenever
the requests are encoded. -/
namespace RaftLabs.Raft
open Lib World
variable {n : Nat} {C : Type} {w w' : World n C} {act : Action n C}

/-! ### Requests with other entries -/

/-- The call with other entries. -/
def Call.setEntries (entries : List (RaftLogEntry C)) (c : Call n C) : Call n C :=
  { c with args := c.args.setEntries entries }

theorem Args.setEntries_eq_requestVote {entries : List (RaftLogEntry C)} {args : Args n C}
    {vote : RequestVoteArgs n} (h : args.setEntries entries = .requestVote vote) :
    args = .requestVote vote := by
  cases args with
  | requestVote args => exact h
  | appendEntries args => cases h
  | installSnapshot args => cases h

@[simp]
theorem Args.leaderTerm_setEntries (entries : List (RaftLogEntry C)) (args : Args n C) :
    (args.setEntries entries).leaderTerm = args.leaderTerm := by
  cases args <;> rfl

@[simp]
theorem Call.election_setEntries (entries : List (RaftLogEntry C)) (c : Call n C) :
    (c.setEntries entries).election = c.election := by
  unfold Call.election Call.setEntries
  cases c.args <;> rfl

theorem setEntries_getElem? (w : World n C) (k j : Nat) (entries : List (RaftLogEntry C)) :
    (w.setEntries k entries).calls[j]? =
      if k = j then w.calls[j]?.map (Call.setEntries entries) else w.calls[j]? := by
  show (w.calls.modify k (Call.setEntries entries))[j]? = _
  rw [List.getElem?_modify]
  split <;> cases w.calls[j]? <;> rfl

/-- Every call was there, up to its entries. -/
theorem exists_call_of_setEntries {k j : Nat} {entries : List (RaftLogEntry C)} {c : Call n C}
    (h : (w.setEntries k entries).calls[j]? = some c) :
    ∃ c₀, w.calls[j]? = some c₀ ∧ (c = c₀ ∨ c = c₀.setEntries entries) := by
  rw [setEntries_getElem?] at h
  split at h
  · obtain ⟨c₀, hc₀, rfl⟩ := Option.map_eq_some_iff.mp h
    exact ⟨c₀, hc₀, .inr rfl⟩
  · exact ⟨c, h, .inl rfl⟩

/-- And every call is there still. -/
theorem exists_setEntries_of_call {j : Nat} {c₀ : Call n C} (h : w.calls[j]? = some c₀) (k : Nat)
    (entries : List (RaftLogEntry C)) :
    ∃ c, (w.setEntries k entries).calls[j]? = some c ∧ (c = c₀ ∨ c = c₀.setEntries entries) := by
  rw [setEntries_getElem?, h]
  split
  · exact ⟨_, rfl, .inr rfl⟩
  · exact ⟨c₀, rfl, .inl rfl⟩

/-! ### Steps on arrays -/

/-- What does not depend on entries is kept when requests are encoded. -/
theorem Memory.encode_keeps {P : World n C → Prop}
    (hentries : ∀ w k entries, P w → P (w.setEntries k entries)) (m : Memory n C)
    (waits : List Nat) (h : P w) : P (m.encode waits w) := by
  unfold Memory.encode
  generalize m.unencoded.filter _ = rs
  induction rs generalizing w with
  | nil => exact h
  | cons r rest ih => exact ih (hentries w _ _ h)

section Invariant
variable {ok : World n C → Action n C → Prop} {P : World n C → Prop}
  (hentries : ∀ w k entries, P w → P (w.setEntries k entries))
  (htake : ∀ w i slots, P w → P (w.applyTakeFrom i slots))
  (hok : ∀ w k entries act, ok w act → ok (w.setEntries k entries) act)
  (hstep : ∀ w act w', P w → ok w act → (cluster n C).step w act = some w' → P w')
include hentries htake hok hstep

theorem anytime_step {x x' : InMemory (World n C) n C} {a : Scheduled (Action n C)}
    (h : P x.state) (hx : anytime ok x a) (hs : (processes n C).step x a = some x') :
    P x'.state := by
  have hencoded := Memory.encode_keeps (P := fun w => P w ∧ ok w a.act)
    (fun w k entries hw => ⟨hentries w k entries hw.1, hok w k entries _ hw.2⟩) x.memory a.waits
    ⟨h, hx⟩
  obtain ⟨w', hw', heq | ⟨i, slots, heq⟩⟩ := processes_step hs
  · exact heq ▸ hstep _ _ _ hencoded.1 hencoded.2 hw'
  · exact heq ▸ htake _ i slots hencoded.1

/-- **An invariant of the cluster that no entry matters to** is one of the processes, too. -/
theorem anytime_invariant (hinit : P (World.initial n C)) {x : InMemory (World n C) n C}
    (h : (processes n C).Reach (anytime ok) x) : P x.state :=
  h.invariant (P := fun x => P x.state) hinit fun _ _ _ _ hx hok' hs =>
    anytime_step hentries htake hok hstep hx hok' hs

end Invariant

/-- `applyLog` takes the pending snapshot message and changes nothing else of its server. -/
theorem applyTakeFrom_raft (w : World n C) (i : Fin n) (slots : List (Option (RaftLogEntry C))) :
    ∃ node : Node n C, w.applyTakeFrom i slots = w.setNode i node ∧
      node.votes = (w.nodes i).votes ∧ node.leading = (w.nodes i).leading ∧
      ∃ msg, node.raft = { (w.nodes i).raft with snapshotMsg := msg } := by
  rcases w.applyTakeFrom_cases i slots with heq | ⟨applying, heq⟩
  · exact ⟨_, heq, rfl, rfl, _, rfl⟩
  · exact ⟨_, heq, rfl, rfl, _, rfl⟩

/-! ### Votes -/

theorem AllHoldVotes.applyTakeFrom {K : Fin n → Fin n → Nat → Prop} (h : AllHoldVotes K w)
    (i : Fin n) (slots : List (Option (RaftLogEntry C))) :
    AllHoldVotes K (w.applyTakeFrom i slots) := by
  obtain ⟨node, heq, -, -, msg, hraft⟩ := applyTakeFrom_raft w i slots
  have hsteady : Steady (w.nodes i).raft node.raft := by
    rw [hraft]
    exact .of_same rfl (.inl ⟨rfl, rfl⟩) rfl ⟨rfl, rfl, rfl⟩
  rw [heq]
  exact h.setNode i node ((h i).steady hsteady)

theorem clearedVote_setEntries (w : World n C) (k : Nat) (entries : List (RaftLogEntry C))
    (act : Action n C) : (w.setEntries k entries).clearedVote act = w.clearedVote act := by
  cases act with
  | handle j =>
    simp only [World.clearedVote, setEntries_getElem?]
    by_cases hj : k = j
    · cases w.calls[j]? <;> simp [hj, Call.setEntries, setEntries_nodes]
    · rw [if_neg hj]
      rfl
  | _ => rfl

/-- One vote per term in every run that clears no vote, whenever the requests are encoded. -/
theorem single_vote_anytime {x : InMemory (World n C) n C}
    (h : (processes n C).Reach (anytime clearsNoVote) x) : SingleVote x.state := by
  have hall : AllHoldVotes (fun _ _ _ => True) x.state :=
    anytime_invariant (fun _ _ _ hw => hw) (fun _ i slots hw => hw.applyTakeFrom i slots)
      (fun w k entries act hok => (clearedVote_setEntries w k entries act).trans hok)
      (fun w act w' hw hok hs => hw.step (fun v c hc => by rw [hok] at hc; cases hc) (stepped hs))
      (allHoldVotes_init _) h
  exact fun v c c' T hc hc' => (hall v).single c c' T hc hc' trivial trivial

/-! ### Elections -/

theorem Genuine.setEntries {trace : List (Event n C)} {c : Call n C} (h : Genuine trace c)
    (entries : List (RaftLogEntry C)) : Genuine trace (c.setEntries entries) where
  remote := h.remote
  candidate args hargs := h.candidate args (Args.setEntries_eq_requestVote hargs)
  granted args reply hargs := h.granted args reply (Args.setEntries_eq_requestVote hargs)
  leader T hT := h.leader T (by rwa [Call.setEntries, Args.leaderTerm_setEntries] at hT)

theorem Elections.setEntries (h : Elections w) (k : Nat) (entries : List (RaftLogEntry C)) :
    Elections (w.setEntries k entries) where
  genuine c hc := by
    obtain ⟨j, hj⟩ := List.mem_iff_getElem?.mp hc
    obtain ⟨c₀, hc₀, rfl | rfl⟩ := exists_call_of_setEntries hj
    · exact h.genuine _ (List.mem_of_getElem? hc₀)
    · exact (h.genuine _ (List.mem_of_getElem? hc₀)).setEntries entries
  distinct j j' c c' hj hj' hne heq := by
    have hsame : ∀ {c c₀ : Call n C}, c = c₀ ∨ c = c₀.setEntries entries →
        c.election = c₀.election := by
      rintro c c₀ (rfl | rfl)
      · rfl
      · exact Call.election_setEntries entries c₀
    obtain ⟨c₀, hc₀, hc⟩ := exists_call_of_setEntries hj
    obtain ⟨c₀', hc₀', hc'⟩ := exists_call_of_setEntries hj'
    rw [hsame hc] at hne heq
    rw [hsame hc'] at heq
    exact h.distinct j j' c₀ c₀' hc₀ hc₀' hne heq
  tally v T := by
    obtain ⟨Q, hle, hQ⟩ := h.tally v T
    refine ⟨Q, hle, fun u hu => ?_⟩
    obtain ⟨c₀, hc₀, helection, hwon⟩ := hQ u hu
    obtain ⟨j, hj⟩ := List.mem_iff_getElem?.mp hc₀
    obtain ⟨c, hc, rfl | rfl⟩ := exists_setEntries_of_call hj k entries
    · exact ⟨_, List.mem_of_getElem? hc, helection, hwon⟩
    · exact ⟨_, List.mem_of_getElem? hc, by rwa [Call.election_setEntries], hwon⟩
  role := h.role
  leading := h.leading
  elected := h.elected
  unique := h.unique

theorem Elections.applyTakeFrom (h : Elections w) (i : Fin n)
    (slots : List (Option (RaftLogEntry C))) : Elections (w.applyTakeFrom i slots) := by
  obtain ⟨node, heq, hvotes, hleading, msg, hraft⟩ := applyTakeFrom_raft w i slots
  rw [heq]
  refine h.setNode i node (hvotes ▸ h.tally i) ?_ (hleading ▸ h.leading i)
  rw [hraft]
  exact h.role i

theorem AllSettled.applyTakeFrom (h : AllSettled w) (i : Fin n)
    (slots : List (Option (RaftLogEntry C))) : AllSettled (w.applyTakeFrom i slots) := by
  obtain ⟨node, heq, -, -, msg, hraft⟩ := applyTakeFrom_raft w i slots
  rw [heq]
  refine h.setNode i node ?_
  rw [hraft]
  exact h i

theorem applyTakeFrom_trace (w : World n C) (i : Fin n)
    (slots : List (Option (RaftLogEntry C))) : (w.applyTakeFrom i slots).trace = w.trace := by
  obtain ⟨node, heq, -⟩ := applyTakeFrom_raft w i slots
  rw [heq]
  rfl

/-- One leader per term in every run without a crash, whenever the requests are encoded. -/
theorem one_leader_anytime {x : InMemory (World n C) n C}
    (h : (processes n C).Reach (anytime crashFree) x) : OneLeaderPerTerm x.state := by
  have hsafe : ElectionSafe x.state ∧ AllSettled x.state := by
    refine anytime_invariant (P := fun w => ElectionSafe w ∧ AllSettled w) ?_ ?_
      (fun _ _ _ _ hok => hok) ?_ ⟨electionSafe_init, fun _ => .inr (.inr ⟨rfl, rfl⟩)⟩ h
    · exact fun w k entries hw => ⟨⟨hw.1.votes, hw.1.elections.setEntries k entries⟩, hw.2⟩
    · refine fun w i slots hw => ⟨⟨?_, hw.1.elections.applyTakeFrom i slots⟩,
        hw.2.applyTakeFrom i slots⟩
      rw [applyTakeFrom_trace]
      exact hw.1.votes.applyTakeFrom i slots
    · exact fun w act w' hw hfree hs => ⟨hw.1.step (hw.2.clearsOwnVotes hw.1.votes act) (stepped hs),
        hw.2.step hw.1.elections hfree (stepped hs)⟩
  exact hsafe.1.elections.unique

/-! ### Terms -/

theorem persistsTerm_setEntries {k : Nat} (entries : List (RaftLogEntry C))
    (h : persistsTerm w act) : persistsTerm (w.setEntries k entries) act := by
  cases act with
  | handle j =>
    intro c hc
    obtain ⟨c₀, hc₀, rfl | rfl⟩ := exists_call_of_setEntries hc
    · exact h _ hc₀
    · have hreq := h c₀ hc₀
      unfold Call.setEntries
      cases hargs : c₀.args with
      | appendEntries args =>
        rw [hargs] at hreq
        exact hreq
      | requestVote args => trivial
      | installSnapshot args => trivial
  | _ => trivial

/-- Every term is on disk and is no lower than before. -/
def TermsKept (before w : World n C) : Prop :=
  ∀ i, (w.nodes i).raft.savedTerm = (w.nodes i).raft.currentTerm ∧
    (before.nodes i).raft.currentTerm ≤ (w.nodes i).raft.currentTerm

theorem TermsKept.applyTakeFrom {before : World n C} (h : TermsKept before w) (i : Fin n)
    (slots : List (Option (RaftLogEntry C))) : TermsKept before (w.applyTakeFrom i slots) := by
  obtain ⟨node, heq, -, -, msg, hraft⟩ := applyTakeFrom_raft w i slots
  rw [heq]
  refine forall_setNode (P := fun j node => node.raft.savedTerm = node.raft.currentTerm ∧
    (before.nodes j).raft.currentTerm ≤ node.raft.currentTerm) h ?_
  rw [hraft]
  exact h i

theorem TermsKept.step {before : World n C} (h : TermsKept before w) (hok : persistsTerm w act)
    (hstep : (cluster n C).step w act = some w') : TermsKept before w' := by
  intro i
  obtain ⟨msgs, hserver, -⟩ := serverStep_of_step hstep i
  obtain ⟨hle, hsaved⟩ := hserver.keepsTerm hok (h i).1
  exact ⟨hsaved, (h i).2.trans hle⟩

/-- Terms are durable in every run in which no server follows a leader of a higher term into a
conflict, whenever the requests are encoded. -/
theorem term_durable_anytime {x x' : InMemory (World n C) n C}
    (h : (processes n C).Reach (anytime persistsTerm) x)
    (hlater : ((processes n C).startingAt x).Reach (anytime persistsTerm) x') (i : Fin n) :
    (x.state.nodes i).raft.currentTerm ≤ ((x'.state.restart i).nodes i).raft.currentTerm ∧
    ∀ args reply, (x'.state.nodes i).raft.answer args = some reply →
      (x.state.nodes i).raft.currentTerm ≤ reply.term ∧
      (reply.accepts = true → (x.state.nodes i).raft.currentTerm ≤ args.term) := by
  have hkeeps : ∀ {before : World n C} {y y' : InMemory (World n C) n C}
      {a : Scheduled (Action n C)}, TermsKept before y.state → anytime persistsTerm y a →
      (processes n C).step y a = some y' → TermsKept before y'.state :=
    anytime_step (fun _ _ _ hw => hw) (fun _ i slots hw => hw.applyTakeFrom i slots)
      (fun _ _ entries _ hok => persistsTerm_setEntries entries hok)
      (fun _ _ _ hw hok hs => hw.step hok hs)
  have hstart : TermsKept (World.initial n C) x.state :=
    h.invariant (P := fun y => TermsKept (World.initial n C) y.state)
      (fun _ => ⟨rfl, Nat.le_refl _⟩) fun _ _ _ _ hy hok hs => hkeeps hy hok hs
  have hend : TermsKept x.state x'.state :=
    System.Reach.invariant (S := (processes n C).startingAt x)
      (P := fun y => TermsKept x.state y.state) (fun i => ⟨(hstart i).1, Nat.le_refl _⟩)
      (fun _ _ _ _ hy hok hs => hkeeps hy hok hs) hlater
  obtain ⟨hsaved, hle⟩ := hend i
  refine ⟨by rwa [restart_currentTerm, hsaved], fun args reply hanswer => ?_⟩
  obtain ⟨hterm, haccepts⟩ := answer_term hanswer
  exact ⟨hterm ▸ hle, fun hacc => hle.trans (haccepts hacc)⟩

end RaftLabs.Raft
