import RaftLabs.Lib.Majority
import RaftLabs.Raft.Votes

/-! At most one leader in a term.

A server can vote twice in a term: a candidate that hears from the term's leader
forgets the vote it cast for itself, and may then vote for someone else. What
saves elections is the order of these events. The vote is only forgotten once the
term has a leader, so it is still in place in the quorum that elected this leader;
and a vote for another candidate is not forgotten at all, unless a crash loses
`LeaderTerm`. So the invariant protects a vote of `v` for another server always,
and a vote of `v` for itself until the term has another leader. -/
namespace RaftLabs.Raft
open Lib World
variable {n : Nat} {C : Type}

/-! ### Which votes are protected -/

/-- The vote of `v` for `c` in term `T` still stands: it is for another server, or
the term has no leader but `v`. -/
def protects (trace : List (Event n C)) (v c : Fin n) (T : Nat) : Prop :=
  c ≠ v ∨ ∀ j, Event.lead j T ∈ trace → j = v

/-- A vote loses its protection over time, and gains none. -/
theorem AllHoldVotes.weaken {K K' : Fin n → Fin n → Nat → Prop} {w : World n C}
    (h : AllHoldVotes K w) (himp : ∀ v c T, K' v c T → K v c T) : AllHoldVotes K' w := by
  intro v
  obtain ⟨hme, hdur, hvoted, hcast, hsaved, hsingle⟩ := h v
  exact ⟨hme, hdur, hvoted, fun c T hm hK => hcast c T hm (himp _ _ _ hK),
    fun c T hm hK => hsaved c T hm (himp _ _ _ hK),
    fun c c' T hm hm' hK hK' => hsingle c c' T hm hm' (himp _ _ _ hK) (himp _ _ _ hK')⟩

theorem protects_antitone {trace events : List (Event n C)} {v c : Fin n} {T : Nat}
    (h : protects (trace ++ events) v c T) : protects trace v c T :=
  h.imp_right fun hj j hm => hj j (List.mem_append_left _ hm)

/-! ### Calls -/

/-- The reply a call came back with, or will come back with unless it is lost. -/
def Progress.reply? : Progress → Option Reply
  | .sent => none
  | .handled reply => some reply
  | .lost => none
  | .returned reply => reply

/-- The election a vote request belongs to: candidate, term and voter. -/
def Call.election (c : Call n C) : Option (Fin n × Nat × Fin n) :=
  match c.args with
  | .requestVote args => some (c.src, args.term, c.dst)
  | _ => none

theorem election_eq_some {c : Call n C} {v u : Fin n} {T : Nat}
    (h : c.election = some (v, T, u)) :
    ∃ args, c.args = .requestVote args ∧ c.src = v ∧ args.term = T ∧ c.dst = u := by
  unfold Call.election at h
  split at h
  · rename_i args hargs
    cases h
    exact ⟨args, hargs, rfl, rfl, rfl⟩
  · cases h

/-- What the observer has seen behind a call. -/
structure Genuine (trace : List (Event n C)) (c : Call n C) : Prop where
  remote : c.dst ≠ c.src
  candidate : ∀ args, c.args = .requestVote args →
    args.candidateId = c.src ∧ 0 < args.term ∧ Event.vote c.src c.src args.term ∈ trace
  granted : ∀ args reply, c.args = .requestVote args →
    c.progress.reply? = some (.requestVote reply) → reply.voteGranted = true →
    Event.vote c.dst c.src args.term ∈ trace
  leader : ∀ T, c.args.leaderTerm = some T → Event.lead c.src T ∈ trace

theorem Genuine.mono {trace trace' : List (Event n C)} {c : Call n C} (h : Genuine trace c)
    (hsub : trace ⊆ trace') : Genuine trace' c where
  remote := h.remote
  candidate args ha := ⟨(h.candidate args ha).1, (h.candidate args ha).2.1,
    hsub (h.candidate args ha).2.2⟩
  granted args reply ha hp hg := hsub (h.granted args reply ha hp hg)
  leader T hT := hsub (h.leader T hT)

/-- A call that moves on without a new reply stays genuine. -/
theorem Genuine.progress {trace : List (Event n C)} {c : Call n C} (h : Genuine trace c)
    {p : Progress} (hp : ∀ r, p.reply? = some r → c.progress.reply? = some r) :
    Genuine trace { c with progress := p } where
  remote := h.remote
  candidate := h.candidate
  granted args reply ha hr hg := h.granted args reply ha (hp _ hr) hg
  leader := h.leader

/-- A leader's call stays genuine whatever its reply is. -/
theorem Genuine.answered {trace : List (Event n C)} {c : Call n C} (h : Genuine trace c)
    (p : Progress) {T : Nat} (hT : c.args.leaderTerm = some T) :
    Genuine trace { c with progress := p } where
  remote := h.remote
  candidate := h.candidate
  granted args _ ha := by
    rw [show c.args = .requestVote args from ha] at hT
    cases hT
  leader := h.leader

/-- A leader's new call. -/
theorem genuine_leader {trace : List (Event n C)} {w : World n C} {i j : Fin n} {args : Args n C}
    {T : Nat} (hj : j ≠ i) (hT : args.leaderTerm = some T) (hlead : Event.lead i T ∈ trace) :
    Genuine trace (w.call i j args) where
  remote := hj
  candidate a ha := by
    rw [show args = .requestVote a from ha] at hT
    cases hT
  granted a _ ha := by
    rw [show args = .requestVote a from ha] at hT
    cases hT
  leader T' hT' := by
    rw [show args.leaderTerm = some T' from hT'] at hT
    cases hT
    exact hlead

theorem mem_others {i j : Fin n} : j ∈ others i ↔ j ≠ i := by
  simp [others]

theorem nodup_others (i : Fin n) : (others i).Nodup := (List.nodup_finRange n).filter _

/-! ### The invariant of elections -/

/-- The vote request came back with a vote. -/
def Call.Won (c : Call n C) : Prop :=
  ∃ reply, c.progress = .returned (some (.requestVote reply)) ∧ reply.voteGranted = true

/-- A tally that the returned votes in `calls` account for. -/
def Counted (calls : List (Call n C)) (v : Fin n) (votes : Nat → Nat) : Prop :=
  ∀ T, ∃ Q : Finset (Fin n), votes T ≤ Q.card + 1 ∧
    ∀ u ∈ Q, ∃ c ∈ calls, c.election = some (v, T, u) ∧ c.Won

/-- How a leader of the term came to be: a majority voted for it, those among them
that are not the leader without having voted for themselves. -/
def Elected (trace : List (Event n C)) (L : Fin n) (T : Nat) : Prop :=
  Event.vote L L T ∈ trace ∧ ∃ Q : Finset (Fin n), n / 2 < Q.card ∧
    ∀ v ∈ Q, v = L ∨ (Event.vote v L T ∈ trace ∧ Event.vote v v T ∉ trace)

/-- What relates the votes a candidate has counted, its calls and the observed
leaders. -/
structure Elections (w : World n C) : Prop where
  genuine : ∀ c ∈ w.calls, Genuine w.trace c
  distinct : ∀ (k k' : Nat) (c c' : Call n C), w.calls[k]? = some c → w.calls[k']? = some c' →
    c.election ≠ none → c.election = c'.election → k = k'
  tally : ∀ v, Counted w.calls v (w.nodes v).votes
  role : ∀ v, (w.nodes v).raft.state = .leader →
    Event.lead v (w.nodes v).raft.currentTerm ∈ w.trace
  leading : ∀ v T, T ∈ (w.nodes v).leading → Event.lead v T ∈ w.trace
  elected : ∀ L T, Event.lead L T ∈ w.trace → Elected w.trace L T
  unique : ∀ L L' T, Event.lead L T ∈ w.trace → Event.lead L' T ∈ w.trace → L = L'

variable {w : World n C}

theorem Elections.setNode (h : Elections w) (i : Fin n) (node : Node n C)
    (htally : Counted w.calls i node.votes)
    (hrole : node.raft.state = .leader → Event.lead i node.raft.currentTerm ∈ w.trace)
    (hleading : ∀ T ∈ node.leading, Event.lead i T ∈ w.trace) : Elections (w.setNode i node) := by
  refine ⟨h.genuine, h.distinct, ?_, ?_, ?_, h.elected, h.unique⟩
  · exact forall_setNode (P := fun v node => Counted w.calls v node.votes) h.tally htally
  · exact forall_setNode (P := fun v node => node.raft.state = .leader →
      Event.lead v node.raft.currentTerm ∈ w.trace) h.role hrole
  · exact forall_setNode (P := fun v node => ∀ T ∈ node.leading, Event.lead v T ∈ w.trace)
      h.leading hleading

/-- A quiet change of a server cannot make it leader. -/
theorem Elections.quietNode (h : Elections w) (i : Fin n) (node : Node n C)
    (hvotes : node.votes = (w.nodes i).votes) (hleading : node.leading = (w.nodes i).leading)
    (hq : Quiet (w.nodes i).raft node.raft) : Elections (w.setNode i node) := by
  refine h.setNode i node (by rw [hvotes]; exact h.tally i) ?_ (by rw [hleading]; exact h.leading i)
  · intro hstate
    have hold : (w.nodes i).raft.state = .leader := by
      rcases hq.state with hs | hs
      · exact hs.symm.trans hstate
      · rw [hs] at hstate
        cases hstate
    have hterm : node.raft.currentTerm = (w.nodes i).raft.currentTerm := by
      rcases hq.ballot with hb | hb | hb
      · exact hb.term
      · rw [hb.state] at hstate
        cases hstate
      · exact hb.term
    rw [hterm]
    exact h.role i hold

theorem Elections.setRaft (h : Elections w) (i : Fin n) {rf' : Raft n C}
    (hq : Quiet (w.nodes i).raft rf') : Elections (w.setRaft i rf') :=
  h.quietNode i _ rfl rfl hq

theorem Elections.panic (h : Elections w) (i : Fin n) : Elections (w.panic i) :=
  h.quietNode i _ rfl rfl (.refl _)

theorem Elections.send (h : Elections w) (calls : List (Call n C))
    (hgen : ∀ c ∈ calls, Genuine w.trace c)
    (hdistinct : ∀ (k k' : Nat) (c c' : Call n C), calls[k]? = some c → calls[k']? = some c' →
      c.election ≠ none → c.election = c'.election → k = k')
    (hfresh : ∀ c ∈ calls, ∀ c' ∈ w.calls, c.election ≠ none → c.election ≠ c'.election) :
    Elections (w.send calls) where
  genuine c hc := (List.mem_append.mp hc).elim (h.genuine c) (hgen c)
  distinct k k' c c' hk hk' hne heq := by
    simp only [send_calls, List.getElem?_append] at hk hk'
    split at hk <;> split at hk'
    · exact h.distinct k k' c c' hk hk' hne heq
    · exact absurd heq.symm (hfresh c' (List.mem_of_getElem? hk') c (List.mem_of_getElem? hk)
        (heq ▸ hne))
    · exact absurd heq (hfresh c (List.mem_of_getElem? hk) c' (List.mem_of_getElem? hk') hne)
    · have := hdistinct _ _ c c' hk hk' hne heq
      omega
  tally v T := by
    obtain ⟨Q, hcard, hQ⟩ := h.tally v T
    refine ⟨Q, hcard, fun u hu => ?_⟩
    obtain ⟨c, hc, hwon⟩ := hQ u hu
    exact ⟨c, List.mem_append_left _ hc, hwon⟩
  role := h.role
  leading := h.leading
  elected := h.elected
  unique := h.unique

/-- Calls of a leader are no vote requests. -/
theorem Elections.sendLeader (h : Elections w) (calls : List (Call n C))
    (hgen : ∀ c ∈ calls, Genuine w.trace c) (hnone : ∀ c ∈ calls, c.election = none) :
    Elections (w.send calls) :=
  h.send calls hgen (fun _ _ c _ hk _ hne => absurd (hnone c (List.mem_of_getElem? hk)) hne)
    fun c hc _ _ hne => absurd (hnone c hc) hne

theorem mem_of_mapM_eq_some {α β : Type} {f : α → Option β} {l : List α} {l' : List β}
    (h : l.mapM f = some l') {b : β} (hb : b ∈ l') : ∃ a ∈ l, f a = some b := by
  induction l generalizing l' with
  | nil =>
    cases h
    cases hb
  | cons a rest ih =>
    simp only [List.mapM_cons, Option.bind_eq_bind, Option.bind_eq_some_iff, Option.pure_def,
      Option.some.injEq] at h
    obtain ⟨b', hb', rest', hrest, rfl⟩ := h
    rcases List.mem_cons.mp hb with rfl | hb
    · exact ⟨a, List.mem_cons_self, hb'⟩
    · obtain ⟨a', ha', hf⟩ := ih hrest hb
      exact ⟨a', List.mem_cons_of_mem _ ha', hf⟩

/-- What a round of heartbeats does: a panic, or one call to every peer. -/
theorem sendHeartBeat_cases (w : World n C) (i : Fin n) :
    w.sendHeartBeat i = w.panic i ∨ ∃ calls : List (Call n C),
      w.sendHeartBeat i = w.send calls ∧ ∀ c ∈ calls, ∃ j args, j ≠ i ∧
        heartBeatArgs (w.nodes i).raft j = some args ∧ c = w.call i j (.appendEntries args) := by
  unfold World.sendHeartBeat
  split
  · exact .inl rfl
  · rename_i args hargs
    refine .inr ⟨_, rfl, fun c hc => ?_⟩
    obtain ⟨p, hp, rfl⟩ := List.mem_map.mp hc
    obtain ⟨j, hj, hjp⟩ := mem_of_mapM_eq_some hargs hp
    obtain ⟨a, ha, rfl⟩ := Option.map_eq_some_iff.mp hjp
    exact ⟨j, a, mem_others.mp hj, ha, rfl⟩

theorem Elections.sendHeartBeat (h : Elections w) (i : Fin n)
    (hlead : Event.lead i (w.nodes i).raft.currentTerm ∈ w.trace) :
    Elections (w.sendHeartBeat i) := by
  rcases sendHeartBeat_cases w i with heq | ⟨calls, heq, hcalls⟩
  · rw [heq]
    exact h.panic i
  · rw [heq]
    refine h.sendLeader calls (fun c hc => ?_) (fun c hc => ?_)
    · obtain ⟨j, args, hj, hargs, rfl⟩ := hcalls c hc
      obtain ⟨prevIndex, prevTerm, _, rfl⟩ := heartBeatArgs_cases hargs
      exact genuine_leader hj rfl hlead
    · obtain ⟨j, args, _, _, rfl⟩ := hcalls c hc
      rfl

/-- A returned vote stays on record. -/
theorem mem_advance_of_won {k : Nat} {c d : Call n C} {p : Progress} (hk : w.calls[k]? = some c)
    (hopen : ∀ reply, c.progress ≠ .returned reply) (hd : d ∈ w.calls) (hwon : d.Won) :
    d ∈ (w.advance k c p).calls := by
  obtain ⟨j, hj⟩ := List.getElem?_of_mem hd
  have hne : k ≠ j := by
    rintro rfl
    rw [hk] at hj
    cases hj
    obtain ⟨reply, hret, _⟩ := hwon
    exact hopen _ hret
  refine List.mem_of_getElem? (i := j) ?_
  rw [advance_calls, List.getElem?_set_ne hne]
  exact hj

theorem Counted.advance {k : Nat} {c : Call n C} {p : Progress} {v : Fin n} {votes : Nat → Nat}
    (h : Counted w.calls v votes) (hk : w.calls[k]? = some c)
    (hopen : ∀ reply, c.progress ≠ .returned reply) :
    Counted (w.advance k c p).calls v votes := by
  intro T
  obtain ⟨Q, hcard, hQ⟩ := h T
  refine ⟨Q, hcard, fun u hu => ?_⟩
  obtain ⟨d, hd, he, hwon⟩ := hQ u hu
  exact ⟨d, mem_advance_of_won hk hopen hd hwon, he, hwon⟩

/-- A call moves on: its new state is genuine and it had not returned before. -/
theorem Elections.advance (h : Elections w) {k : Nat} {c : Call n C} {p : Progress}
    (hk : w.calls[k]? = some c) (hopen : ∀ reply, c.progress ≠ .returned reply)
    (hgen : Genuine w.trace { c with progress := p }) : Elections (w.advance k c p) where
  genuine c' hc' := by
    rcases List.mem_or_eq_of_mem_set hc' with hc' | rfl
    · exact h.genuine c' hc'
    · exact hgen
  distinct j j' d d' hj hj' hne heq := by
    -- the calls keep their elections
    have back : ∀ (j : Nat) (d : Call n C), (w.advance k c p).calls[j]? = some d →
        ∃ d₀, w.calls[j]? = some d₀ ∧ d₀.election = d.election := by
      intro j d hj
      rw [advance_calls, List.getElem?_set] at hj
      split at hj
      · rename_i hkj
        subst hkj
        split at hj
        · cases hj
          exact ⟨c, hk, rfl⟩
        · cases hj
      · exact ⟨d, hj, rfl⟩
    obtain ⟨d₀, hd, he⟩ := back j d hj
    obtain ⟨d₀', hd', he'⟩ := back j' d' hj'
    exact h.distinct j j' d₀ d₀' hd hd' (he ▸ hne) (by rw [he, he', heq])
  tally v := (h.tally v).advance hk hopen
  role := h.role
  leading := h.leading
  elected := h.elected
  unique := h.unique

/-- New events without a leader among them; who votes for itself has not voted in
the term. -/
theorem Elections.observe (h : Elections w) (events : List (Event n C))
    (hlead : ∀ L T, Event.lead L T ∉ events)
    (hself : ∀ v T, Event.vote v v T ∈ events → ∀ c, Event.vote v c T ∉ w.trace) :
    Elections (w.observe events) := by
  have hsub : w.trace ⊆ (w.observe events).trace := List.subset_append_left _ _
  have hold : ∀ L T, Event.lead L T ∈ (w.observe events).trace → Event.lead L T ∈ w.trace := by
    intro L T hm
    exact (List.mem_append.mp hm).resolve_right (hlead L T)
  refine ⟨fun c hc => (h.genuine c hc).mono hsub, h.distinct, h.tally,
    fun v hv => hsub (h.role v hv), fun v T hT => hsub (h.leading v T hT), ?_,
    fun L L' T hL hL' => h.unique L L' T (hold L T hL) (hold L' T hL')⟩
  intro L T hL
  obtain ⟨hvote, Q, hcard, hQ⟩ := h.elected L T (hold L T hL)
  refine ⟨hsub hvote, Q, hcard, fun v hv => (hQ v hv).imp_right fun ⟨hvL, hvv⟩ => ?_⟩
  refine ⟨hsub hvL, fun hm => ?_⟩
  rcases List.mem_append.mp hm with hm | hm
  · exact hvv hm
  · exact hself v T hm L hvL

/-- A returned vote is counted once: no counted vote of this election came from the
same server. -/
theorem Elections.countVote (h : Elections w) {k : Nat} {c : Call n C} {args : RequestVoteArgs n}
    {reply : RequestVoteReply} (hk : w.calls[k]? = some c) (hargs : c.args = .requestVote args)
    (hreply : c.progress = .handled (.requestVote reply)) (hgrant : reply.voteGranted = true) :
    Counted (w.advance k c (.returned (some (.requestVote reply)))).calls c.src
      (Function.update (w.nodes c.src).votes args.term
        ((w.nodes c.src).votes args.term + 1)) := by
  have hopen : ∀ r, c.progress ≠ .returned r := by
    rw [hreply]
    exact nofun
  have hel : c.election = some (c.src, args.term, c.dst) := by
    unfold Call.election
    rw [hargs]
  have hold := (h.tally c.src).advance (p := .returned (some (.requestVote reply))) hk hopen
  intro T
  by_cases hT : T = args.term
  · subst hT
    obtain ⟨Q, hcard, hQ⟩ := h.tally c.src args.term
    have hnew : c.dst ∉ Q := by
      intro hm
      obtain ⟨d, hd, he, r, hret, _⟩ := hQ c.dst hm
      obtain ⟨j, hj⟩ := List.getElem?_of_mem hd
      have hjk : j = k := h.distinct j k d c hj hk (by rw [he]; nofun) (he.trans hel.symm)
      subst hjk
      rw [hj] at hk
      cases hk
      exact hopen _ hret
    refine ⟨insert c.dst Q, ?_, fun u hu => ?_⟩
    · rw [Function.update_self, Finset.card_insert_of_notMem hnew]
      omega
    · rcases Finset.mem_insert.mp hu with rfl | hu
      · refine ⟨{ c with progress := .returned (some (.requestVote reply)) }, ?_, hel,
          reply, rfl, hgrant⟩
        refine List.mem_of_getElem? (i := k) ?_
        rw [advance_calls, List.getElem?_set_self (List.getElem?_eq_some_iff.mp hk).1]
      · obtain ⟨d, hd, he, hwon⟩ := hQ u hu
        exact ⟨d, mem_advance_of_won hk hopen hd hwon, he, hwon⟩
  · rw [Function.update_of_ne hT]
    exact hold T

/-! ### A new leader -/

/-- A majority's votes make a server the only leader of the term. -/
theorem Elections.lead_unique (h : Elections w) (hv : AllHoldVotes (protects w.trace) w)
    {i : Fin n} {T : Nat} (hself : Event.vote i i T ∈ w.trace) {Q : Finset (Fin n)}
    (hQ : n / 2 < Q.card) (hvotes : ∀ u ∈ Q, u = i ∨ Event.vote u i T ∈ w.trace)
    {L : Fin n} (hL : Event.lead L T ∈ w.trace) : L = i := by
  by_contra hne
  obtain ⟨hLL, Q', hQ', hvotes'⟩ := h.elected L T hL
  obtain ⟨u, hu, hu'⟩ := (majority_of_half hQ).inter (majority_of_half hQ')
  rcases hvotes' u hu' with rfl | ⟨huL, huu⟩
  · -- the leader itself voted for `i`, although nothing can have cleared its own vote
    have hui : Event.vote u i T ∈ w.trace := (hvotes u hu).resolve_left hne
    refine hne ((hv u).single u i T hLL hui (.inr fun j hj => ?_) (.inl (Ne.symm hne)))
    exact h.unique j u T hj hL
  · rcases hvotes u hu with rfl | hui
    · -- `i` voted for the leader without having voted for itself
      exact huu hself
    · by_cases hLu : L = u
      · subst hLu
        exact huu hLL
      · by_cases hiu : i = u
        · subst hiu
          exact huu hself
        · exact hne ((hv u).single L i T huL hui (.inl hLu) (.inl hiu))

theorem Elections.lead (h : Elections w) (hv : AllHoldVotes (protects w.trace) w)
    {i : Fin n} {T : Nat} (hself : Event.vote i i T ∈ w.trace) {Q : Finset (Fin n)}
    (hQ : n / 2 < Q.card) (hvotes : ∀ u ∈ Q, u = i ∨ Event.vote u i T ∈ w.trace) :
    Elections (w.observe [.lead i T]) := by
  have hsub : w.trace ⊆ (w.observe [.lead i T]).trace := List.subset_append_left _ _
  have hvote : ∀ v c T', Event.vote v c T' ∈ (w.observe [.lead i T]).trace →
      Event.vote v c T' ∈ w.trace := by
    intro v c T' hm
    exact (List.mem_append.mp hm).resolve_right (by simp)
  have hcases : ∀ L T', Event.lead L T' ∈ (w.observe [.lead i T]).trace →
      Event.lead L T' ∈ w.trace ∨ (L = i ∧ T' = T) := by
    intro L T' hm
    refine (List.mem_append.mp hm).imp_right fun hm => ?_
    simpa using hm
  have hother : ∀ L, Event.lead L T ∈ w.trace → L = i := fun L =>
    h.lead_unique hv hself hQ hvotes
  refine ⟨fun c hc => (h.genuine c hc).mono hsub, h.distinct, h.tally,
    fun v hv => hsub (h.role v hv), fun v T' hT => hsub (h.leading v T' hT), ?_, ?_⟩
  · intro L T' hL
    by_cases hold : Event.lead L T' ∈ w.trace
    · obtain ⟨hLL, Q', hQ', hvotes'⟩ := h.elected L T' hold
      exact ⟨hsub hLL, Q', hQ', fun v hv => (hvotes' v hv).imp_right fun ⟨hvL, hvv⟩ =>
        ⟨hsub hvL, fun hm => hvv (hvote v v T' hm)⟩⟩
    · obtain ⟨rfl, rfl⟩ := (hcases L T' hL).resolve_left hold
      refine ⟨hsub hself, Q, hQ, fun v hvQ => ?_⟩
      by_cases hvi : v = L
      · exact .inl hvi
      · -- the term has no leader yet, so a voter's own vote would stand
        have hvL := (hvotes v hvQ).resolve_left hvi
        refine .inr ⟨hsub hvL, fun hm => hvi ?_⟩
        refine (hv v).single v L T' (hvote v v T' hm) hvL (.inr fun j hj => ?_) (.inl (Ne.symm hvi))
        rw [hother j hj] at hj
        exact absurd hj hold
  · intro L L' T' hL hL'
    rcases hcases L T' hL with hold | ⟨rfl, hT⟩ <;> rcases hcases L' T' hL' with hold' | ⟨rfl, hT'⟩
    · exact h.unique L L' T' hold hold'
    · subst hT'
      exact hother L hold
    · subst hT
      exact (hother L' hold').symm
    · rfl

/-! ### Every step -/

/-- The step clears no vote for another server. -/
def clearsOwnVotes (w : World n C) (a : Action n C) : Prop :=
  ∀ v c, w.clearedVote a = some (v, c) → c = v

/-- A vote that a leader's request clears is not protected: the term has that leader. -/
theorem Elections.cleared (h : Elections w) {a : Action n C} (hown : clearsOwnVotes w a)
    {v c : Fin n} (hc : w.clearedVote a = some (v, c)) :
    ¬ protects w.trace v c (w.nodes v).raft.currentTerm := by
  obtain rfl := hown v c hc
  obtain ⟨call, hcall, rfl, hterm, -, -⟩ := clearedVote_cases hc
  have hgen := h.genuine call hcall
  rintro (hne | hall)
  · exact hne rfl
  · exact hgen.remote (hall _ (hgen.leader _ hterm)).symm

/-- The requests of a new candidate. -/
theorem Elections.election (h : Elections w) (hv : AllHoldVotes (protects w.trace) w) (i : Fin n) :
    Elections (((w.setNode i (w.candidate i)).send ((others i).map fun j =>
        w.call i j (.requestVote (prepareElection (w.nodes i).raft).2))).observe
      [.vote i i ((w.nodes i).raft.currentTerm + 1)]) := by
  have hnew : ∀ c, Event.vote i c ((w.nodes i).raft.currentTerm + 1) ∉ w.trace := by
    intro c hm
    have := (hv i).voted c _ hm
    have := (hv i).durable
    omega
  have h₁ : Elections (w.observe [.vote i i ((w.nodes i).raft.currentTerm + 1)]) := by
    refine h.observe _ (by simp) fun v T hm => ?_
    simp only [List.mem_singleton, Event.vote.injEq] at hm
    obtain ⟨rfl, _, rfl⟩ := hm
    exact hnew
  have h₂ := h₁.setNode i (w.candidate i) ?tally (nofun : Role.candidate = Role.leader → _)
    (h₁.leading i)
  · refine h₂.send _ (fun c hc => ?_) (fun k k' c c' hk hk' _ heq => ?_) fun c hc c' hc' _ heq => ?_
    · obtain ⟨j, hj, rfl⟩ := List.mem_map.mp hc
      refine ⟨mem_others.mp hj, fun args ha => ?_, fun _ _ _ => nofun, nofun⟩
      cases ha
      refine ⟨(hv i).me, Nat.succ_pos _, ?_⟩
      exact List.mem_append_right _ (List.mem_singleton.mpr rfl)
    · rw [List.getElem?_map] at hk hk'
      obtain ⟨j, hj, rfl⟩ := Option.map_eq_some_iff.mp hk
      obtain ⟨j', hj', rfl⟩ := Option.map_eq_some_iff.mp hk'
      have hjj : j = j' := (Prod.mk.inj (Prod.mk.inj (Option.some.inj heq)).2).2
      refine (List.getElem?_inj (List.getElem?_eq_some_iff.mp hj).1 (nodup_others i)).mp ?_
      rw [hj, hj', hjj]
    · -- an earlier request of this term would come with an earlier vote
      obtain ⟨j, _, rfl⟩ := List.mem_map.mp hc
      obtain ⟨args, ha, hsrc, hterm, _⟩ := election_eq_some heq.symm
      have hold := ((h.genuine c' hc').candidate args ha).2.2
      rw [hsrc, hterm] at hold
      exact hnew i hold
  case tally =>
    intro T
    show ∃ Q : Finset (Fin n), Function.update (w.nodes i).votes _ 1 T ≤ Q.card + 1 ∧ _
    by_cases hT : T = (w.nodes i).raft.currentTerm + 1
    · subst hT
      exact ⟨∅, by rw [Function.update_self]; simp, by simp⟩
    · rw [Function.update_of_ne hT]
      exact h.tally i T

/-- A request for a vote is handled. -/
theorem Elections.handleVote (h : Elections w) {k : Nat} {c : Call n C} {args : RequestVoteArgs n}
    (hk : w.calls[k]? = some c) (hargs : c.args = .requestVote args)
    (hsent : c.progress = .sent) :
    Elections (((w.setRaft c.dst ((w.nodes c.dst).raft.requestVote args).1).advance k c
        (.handled (.requestVote ((w.nodes c.dst).raft.requestVote args).2))).observe
      (if ((w.nodes c.dst).raft.requestVote args).2.voteGranted then
        [.vote c.dst args.candidateId args.term] else [])) := by
  have hgen := h.genuine c (List.mem_of_getElem? hk)
  obtain ⟨hcand, _, hself⟩ := hgen.candidate args hargs
  have hopen : ∀ reply, c.progress ≠ .returned reply := by
    rw [hsent]
    exact nofun
  rcases requestVote_cases (w.nodes c.dst).raft args with ⟨hno, hst⟩ | ⟨hyes, hle, hfree, _, heq⟩
  · rw [hno]
    refine Elections.observe (Elections.advance (h.setRaft c.dst hst.1) hk hopen ?_) _ (by simp)
      (by simp)
    refine ⟨hgen.remote, hgen.candidate, fun a reply ha hr hg => ?_, hgen.leader⟩
    cases hr
    rw [hno] at hg
    cases hg
  · rw [hyes]
    have h₁ : Elections (w.observe [.vote c.dst args.candidateId args.term]) := by
      refine h.observe _ (by simp) fun v T hm => ?_
      simp only [List.mem_singleton, Event.vote.injEq] at hm
      obtain ⟨rfl, hsame, _⟩ := hm
      exact absurd (hsame.trans hcand) hgen.remote
    have h₂ := h₁.setNode c.dst
      { w.nodes c.dst with raft := ((w.nodes c.dst).raft.requestVote args).1 } (h.tally c.dst) ?role
      (h₁.leading c.dst)
    · refine Elections.advance h₂ hk hopen ?_
      refine ⟨hgen.remote, (hgen.mono (List.subset_append_left _ _)).candidate,
        fun a reply ha _ _ => ?_,
        (hgen.mono (List.subset_append_left _ _)).leader⟩
      cases hargs.symm.trans ha
      rw [← hcand]
      exact List.mem_append_right _ (List.mem_singleton.mpr rfl)
    case role =>
      intro hstate
      refine List.mem_append_left _ ?_
      dsimp only at hstate ⊢
      rw [heq] at hstate ⊢
      by_cases hlt : (w.nodes c.dst).raft.currentTerm < args.term
      · rw [if_pos hlt] at hstate
        cases hstate
      · rw [if_neg hlt] at hstate ⊢
        exact h.role c.dst hstate

/-- The votes behind an election, with the one that decides it: a majority, whose
members are the candidate and servers that returned a vote. -/
theorem Elections.majority (h : Elections w) {k : Nat} {c : Call n C} {args : RequestVoteArgs n}
    {reply : RequestVoteReply} (hk : w.calls[k]? = some c) (hargs : c.args = .requestVote args)
    (hreply : c.progress = .handled (.requestVote reply)) (hgrant : reply.voteGranted = true)
    (hvotes : n / 2 < (w.nodes c.src).votes args.term + 1) :
    ∃ Q : Finset (Fin n), n / 2 < Q.card ∧ ∀ u ∈ Q, u = c.src ∨
      ∃ d ∈ (w.advance k c (.returned (some (.requestVote reply)))).calls,
        d.election = some (c.src, args.term, u) ∧ d.Won := by
  obtain ⟨Q, hcard, hQ⟩ := h.countVote hk hargs hreply hgrant args.term
  rw [Function.update_self] at hcard
  have hremote : ∀ d ∈ (w.advance k c (.returned (some (.requestVote reply)))).calls,
      d.dst ≠ d.src := by
    intro d hd
    rcases List.mem_or_eq_of_mem_set hd with hd | rfl
    · exact (h.genuine d hd).remote
    · exact (h.genuine c (List.mem_of_getElem? hk)).remote
  -- the voters counted so far do not include the candidate
  have hnot : c.src ∉ Q := by
    intro hm
    obtain ⟨d, hd, he, _⟩ := hQ c.src hm
    obtain ⟨_, _, hsrc, _, hdst⟩ := election_eq_some he
    exact hremote d hd (hdst.trans hsrc.symm)
  refine ⟨insert c.src Q, ?_, fun u hu => (Finset.mem_insert.mp hu).imp_right (hQ u)⟩
  rw [Finset.card_insert_of_notMem hnot]
  omega

/-- The vote that makes its candidate leader. -/
theorem Elections.elect (h : Elections w) {k : Nat} {c : Call n C} {args : RequestVoteArgs n}
    {reply : RequestVoteReply} (hv : AllHoldVotes (protects w.trace) w)
    (hk : w.calls[k]? = some c) (hargs : c.args = .requestVote args)
    (hreply : c.progress = .handled (.requestVote reply)) (hgrant : reply.voteGranted = true)
    (hterm : (w.nodes c.src).raft.currentTerm = args.term)
    (hvotes : n / 2 < (w.nodes c.src).votes args.term + 1) :
    Elections ((w.advance k c (.returned (some (.requestVote reply)))).elect c.src) := by
  have hgen := h.genuine c (List.mem_of_getElem? hk)
  have hcount := h.countVote hk hargs hreply hgrant
  obtain ⟨Q, hcard, hQ⟩ := h.majority hk hargs hreply hgrant hvotes
  have h₁ : Elections (w.advance k c (.returned (some (.requestVote reply)))) := by
    refine h.advance hk (by rw [hreply]; exact nofun) (hgen.progress ?_)
    rw [hreply]
    exact fun _ hr => hr
  have hself := (hgen.candidate args hargs).2.2
  rw [← hterm] at hcount hQ hself
  have hvoted : ∀ u ∈ Q, u = c.src ∨
      Event.vote u c.src (w.nodes c.src).raft.currentTerm ∈ w.trace := by
    intro u hu
    refine (hQ u hu).imp_right fun ⟨d, hd, he, r, hret, hr⟩ => ?_
    obtain ⟨a, ha, hsrc, hT, hdst⟩ := election_eq_some he
    rw [← hT, ← hdst, ← hsrc]
    exact (h₁.genuine d hd).granted a r ha (by rw [hret]; rfl) hr
  have h₂ := h₁.lead hv hself hcard hvoted
  have hlead : Event.lead c.src (w.nodes c.src).raft.currentTerm ∈
      w.trace ++ [.lead c.src (w.nodes c.src).raft.currentTerm] :=
    List.mem_append_right _ (List.mem_singleton.mpr rfl)
  refine h₂.setNode c.src (w.elected c.src) hcount (fun _ => hlead) fun T hT => ?_
  rcases List.mem_cons.mp hT with rfl | hT
  · exact hlead
  · exact h₂.leading c.src T hT

/-- Both halves of the argument: votes stand while they are protected, and leaders
have majorities. -/
structure ElectionSafe (w : World n C) : Prop where
  votes : AllHoldVotes (protects w.trace) w
  elections : Elections w

theorem sendHeartBeat_trace (w : World n C) (i : Fin n) : (w.sendHeartBeat i).trace = w.trace := by
  rcases sendHeartBeat_cases w i with heq | ⟨_, heq, _⟩ <;> rw [heq] <;> rfl

theorem Stepped.trace {w' : World n C} {a : Action n C} (hs : Stepped w a w') :
    ∃ events, w'.trace = w.trace ++ events := by
  cases hs with
  | election | commit | requestVote | applySend => exact ⟨_, rfl⟩
  | heartBeat i _ => exact ⟨[], by rw [sendHeartBeat_trace, List.append_nil]⟩
  | elected k c => exact ⟨_, sendHeartBeat_trace _ _⟩
  | _ => exact ⟨[], (List.append_nil _).symm⟩

/-- A call that returned moves on with the reply it was handled with. -/
theorem Elections.returned (h : Elections w) {k : Nat} {c : Call n C} {reply : Option Reply}
    (hk : w.calls[k]? = some c) (hreply : ∀ r, reply = some r → c.progress = .handled r)
    (hopen : ∀ reply, c.progress ≠ .returned reply) :
    Elections (w.advance k c (.returned reply)) := by
  refine h.advance hk hopen ((h.genuine c (List.mem_of_getElem? hk)).progress fun r hr => ?_)
  rw [hreply r hr]
  rfl

theorem Elections.returnedHandled (h : Elections w) {k : Nat} {c : Call n C} {reply : Reply}
    (hk : w.calls[k]? = some c) (hreply : c.progress = .handled reply) :
    Elections (w.advance k c (.returned (some reply))) := by
  refine h.returned hk (fun r hr => ?_) (by rw [hreply]; exact nofun)
  cases hr
  exact hreply

theorem not_returned_of_sent {c : Call n C} (hsent : c.progress = .sent) (reply : Option Reply) :
    c.progress ≠ .returned reply := by
  rw [hsent]
  exact nofun

theorem Elections.step {w' : World n C} {a : Action n C} (h : Elections w)
    (hv : AllHoldVotes (protects w.trace) w) (hs : Stepped w a w') : Elections w' := by
  cases hs with
  | idle => exact h
  | panic i => exact h.panic i
  | election i _ => exact h.election hv i
  | heartBeat i hstate => exact h.sendHeartBeat i (h.role i hstate)
  | replicateSnapshot i j hj hlead args hargs =>
    refine h.sendLeader _ (fun c hc => ?_) (fun c hc => ?_) <;> cases List.mem_singleton.mp hc
    · rw [replicateLog_snapshot hargs]
      exact genuine_leader hj rfl (h.leading i _ hlead)
    · rfl
  | replicateEntries i j hj hlead args hargs =>
    refine h.sendLeader _ (fun c hc => ?_) (fun c hc => ?_) <;> cases List.mem_singleton.mp hc
    · refine genuine_leader hj rfl (h.leading i _ ?_)
      rw [replicateLog_entries_term hargs]
      exact hlead
    · rfl
  | commit i hlead index hscan =>
    refine Elections.observe (h.setRaft i ?_) _ (by simp) (by simp)
    exact ⟨rfl, .inl ⟨rfl, rfl⟩, .inl rfl, .inl ⟨rfl, rfl, rfl⟩⟩
  | requestVote k c args hk hargs hs => exact h.handleVote hk hargs hs
  | appendEntries k c args hk hargs hs rf reply happ =>
    refine Elections.advance (h.setRaft c.dst (appendEntries_quiet happ)) hk
      (not_returned_of_sent hs) ?_
    exact (h.genuine c (List.mem_of_getElem? hk)).answered _ (by rw [hargs]; rfl)
  | installSnapshot k c args hk hargs hs rf reply hins =>
    refine Elections.advance (h.setRaft c.dst (installSnapshot_quiet hins)) hk
      (not_returned_of_sent hs) ?_
    exact (h.genuine c (List.mem_of_getElem? hk)).answered _ (by rw [hargs]; rfl)
  | lose k c hk hopen =>
    exact h.advance hk hopen ((h.genuine c (List.mem_of_getElem? hk)).progress nofun)
  | returned k c reply hk hreply hopen => exact h.returned hk hreply hopen
  | returnedPanic k c reply hk hreply hopen => exact (h.returned hk hreply hopen).panic c.src
  | voteCounted k c args reply hk hargs hreply hgrant =>
    exact (h.returnedHandled hk hreply).setNode c.src _ (h.countVote hk hargs hreply hgrant)
      (h.role c.src) (h.leading c.src)
  | elected k c args reply hk hargs hreply hgrant hepoch hterm hvotes =>
    refine Elections.sendHeartBeat (h.elect hv hk hargs hreply hgrant hterm hvotes) c.src ?_
    unfold World.elect
    rw [observe_nodes, setNode_self]
    exact List.mem_append_right _ (List.mem_singleton.mpr rfl)
  | voteRefused k c args reply hk _ hreply hterm =>
    exact (h.returnedHandled hk hreply).setRaft c.src (stepDown_steady _ hterm).1
  | appendReturned k c args reply rf hk _ hreply hopen _ happ =>
    exact (h.returned hk hreply hopen).setRaft c.src (appendEntriesReturned_steady happ).1
  | installReturned k c args reply hk _ hreply hopen =>
    exact (h.returned hk hreply hopen).setRaft c.src (installSnapshotReturned_steady _ _ _ _).1
  | start i command => exact h.setRaft i (start_steady _ command).1
  | snapshot i index data _ rf hsnap => exact h.setRaft i (snapshot_steady hsnap).1
  | applyTake i _ rf msgs last happ => exact h.quietNode i _ rfl rfl (applyLog_steady happ).1
  | applySend i msg rest last _ =>
    unfold World.applySend
    refine Elections.observe ?_ _ (by simp) (by simp)
    exact h.quietNode i _ rfl rfl (.refl _)
  | applyDone i last _ => exact h.quietNode i _ rfl rfl (applied_steady _ last).1
  | restart i =>
    refine h.setNode i _ (fun T => ⟨∅, Nat.zero_le _, by simp⟩) (fun hstate => ?_) nofun
    rw [Node.boot, make_eq] at hstate
    cases hstate

theorem ElectionSafe.step {w' : World n C} {a : Action n C} (h : ElectionSafe w)
    (hown : clearsOwnVotes w a) (hs : Stepped w a w') : ElectionSafe w' := by
  refine ⟨?_, h.elections.step h.votes hs⟩
  obtain ⟨events, htrace⟩ := hs.trace
  refine (h.votes.step (fun v c hc => h.elections.cleared hown hc) hs).weaken fun v c T hK => ?_
  rw [htrace] at hK
  exact protects_antitone hK

theorem electionSafe_init : ElectionSafe (World.initial n C) :=
  ⟨allHoldVotes_init _, nofun, (fun _ _ _ _ hk => nomatch hk),
    fun _ _ => ⟨∅, Nat.zero_le _, by simp⟩, nofun, nofun, nofun,
    nofun⟩

/-! ### Runs without crashes -/

/-- A server's `LeaderTerm` names its term unless it entered the term as a candidate
and still has its own vote, or has not left term 0. -/
def Settled (rf : Raft n C) : Prop :=
  rf.votedFor = some rf.me ∨ rf.leaderTerm = some rf.currentTerm ∨
    (rf.currentTerm = 0 ∧ rf.votedFor = none)

theorem Settled.quiet {rf rf' : Raft n C} (h : Settled rf) (hq : Quiet rf rf') : Settled rf' := by
  unfold Settled
  rcases hq.ballot with hb | hb | hb
  · rw [hb.vote, hb.term, hb.leader, hq.me]
    exact h
  · exact .inr (.inl hb.leader)
  · rw [hb.leader, hb.term]
    exact .inr (.inl rfl)

theorem Settled.requestVote {rf : Raft n C} (h : Settled rf) (args : RequestVoteArgs n)
    (hpos : 0 < args.term) : Settled (rf.requestVote args).1 := by
  rcases requestVote_cases rf args with ⟨_, hst⟩ | ⟨_, hle, hfree, _, heq⟩
  · exact h.quiet hst.1
  · rw [heq]
    by_cases hlt : rf.currentTerm < args.term
    · rw [if_pos hlt]
      exact .inr (.inl rfl)
    · rw [if_neg hlt]
      rcases h with hme | hlead | ⟨hzero, _⟩
      · rcases hfree (by omega) with hf | hf
        · rw [hf] at hme
          cases hme
        · exact .inl (hf.symm.trans hme)
      · exact .inr (.inl hlead)
      · omega

/-- Every server is settled. -/
def AllSettled (w : World n C) : Prop := ∀ v, Settled (w.nodes v).raft

theorem AllSettled.setNode (h : AllSettled w) (i : Fin n) (node : Node n C)
    (hi : Settled node.raft) : AllSettled (w.setNode i node) :=
  forall_setNode (P := fun _ node => Settled node.raft) h hi

theorem AllSettled.setRaft (h : AllSettled w) (i : Fin n) {rf' : Raft n C}
    (hq : Quiet (w.nodes i).raft rf') : AllSettled (w.setRaft i rf') :=
  h.setNode i _ ((h i).quiet hq)

theorem AllSettled.sendHeartBeat (h : AllSettled w) (i : Fin n) :
    AllSettled (w.sendHeartBeat i) := by
  rcases sendHeartBeat_cases w i with heq | ⟨calls, heq, _⟩
  · rw [heq]
    exact h.setNode i _ (h i)
  · rw [heq]
    exact h

theorem AllSettled.step {w' : World n C} {a : Action n C} (h : AllSettled w) (he : Elections w)
    (hfree : crashFree w a) (hs : Stepped w a w') : AllSettled w' := by
  cases hs with
  | idle | replicateSnapshot | replicateEntries | lose | returned => exact h
  | panic i => exact h.setNode i _ (h i)
  | election i _ => exact h.setNode i _ (.inl rfl)
  | heartBeat i _ => exact h.sendHeartBeat i
  | commit i => exact h.setNode i _ (h i)
  | requestVote k c args hk hargs =>
    refine h.setNode c.dst _ ((h c.dst).requestVote args ?_)
    exact ((he.genuine c (List.mem_of_getElem? hk)).candidate args hargs).2.1
  | appendEntries k c args _ _ _ rf reply happ => exact h.setRaft c.dst (appendEntries_quiet happ)
  | installSnapshot k c args _ _ _ rf reply hins =>
    exact h.setRaft c.dst (installSnapshot_quiet hins)
  | returnedPanic k c => exact h.setNode c.src _ (h c.src)
  | voteCounted k c => exact h.setNode c.src _ (h c.src)
  | elected k c =>
    refine AllSettled.sendHeartBeat ?_ c.src
    exact h.setNode c.src _ (h c.src)
  | voteRefused k c args reply _ _ _ hterm => exact h.setRaft c.src (stepDown_steady _ hterm).1
  | appendReturned k c args reply rf _ _ _ _ _ happ =>
    exact h.setRaft c.src (appendEntriesReturned_steady happ).1
  | installReturned k c args reply =>
    exact h.setRaft c.src (installSnapshotReturned_steady _ _ _ _).1
  | start i command => exact h.setRaft i (start_steady _ command).1
  | snapshot i index data _ rf hsnap => exact h.setRaft i (snapshot_steady hsnap).1
  | applyTake i _ rf msgs last happ =>
    exact h.setNode i _ ((h i).quiet (applyLog_steady happ).1)
  | applySend i => exact h.setNode i _ (h i)
  | applyDone i last => exact h.setNode i _ ((h i).quiet (applied_steady _ last).1)
  | restart i => exact hfree.elim

/-- A vote that a settled server loses inside its term is its own. -/
theorem AllSettled.clearsOwnVotes (h : AllSettled w) (hv : AllHoldVotes (protects w.trace) w)
    (a : Action n C) : clearsOwnVotes w a := by
  intro v c hc
  obtain ⟨-, -, -, -, hother, hcand⟩ := clearedVote_cases hc
  rcases h v with hme | hlead | ⟨-, hnone⟩
  · rw [hcand, (hv v).me] at hme
    exact Option.some.inj hme
  · exact absurd hlead hother
  · rw [hcand] at hnone
    cases hnone

theorem crashFree_safe {w : World n C} (h : (cluster n C).Reach crashFree w) :
    ElectionSafe w ∧ AllSettled w := by
  refine h.invariant (P := fun w => ElectionSafe w ∧ AllSettled w)
    ⟨electionSafe_init, fun _ => .inr (.inr ⟨rfl, rfl⟩)⟩ ?_
  intro w a w' _ ⟨hsafe, hset⟩ hfree hs
  exact ⟨hsafe.step (hset.clearsOwnVotes hsafe.votes a) (stepped hs),
    hset.step hsafe.elections hfree (stepped hs)⟩

/-- The leaders an observer has seen in a term are one server. -/
def OneLeaderPerTerm (w : World n C) : Prop :=
  ∀ i j T, Event.lead i T ∈ w.trace → Event.lead j T ∈ w.trace → i = j

/-- **Election safety** of every run without a crash: in no term do two servers become
leader. -/
theorem one_leader_per_term {w : World n C} (h : (cluster n C).Reach crashFree w) :
    OneLeaderPerTerm w :=
  (crashFree_safe h).1.elections.unique

theorem voteTwice_leads :
    (((cluster 3 Nat).runWhere crashFree (cluster 3 Nat).init voteTwice).map fun w =>
      decide (.vote 1 1 1 ∈ w.trace ∧ .vote 1 0 1 ∈ w.trace ∧ .lead 0 1 ∈ w.trace)) =
      some true := by
  decide +kernel

/-- The run in which server 1 votes twice has one leader. -/
theorem one_leader_voteTwice : ∃ w : World 3 Nat, (cluster 3 Nat).Reach crashFree w ∧
    Event.vote 1 1 1 ∈ w.trace ∧ Event.vote 1 0 1 ∈ w.trace ∧
    ∀ j, Event.lead j 1 ∈ w.trace ↔ j = 0 := by
  obtain ⟨w, hrun, hev⟩ := Option.map_eq_some_iff.mp voteTwice_leads
  obtain ⟨hself, hother, hlead⟩ := of_decide_eq_true hev
  have hreach := System.reach_runWhere .init voteTwice hrun
  refine ⟨w, hreach, hself, hother, fun j => ⟨fun hj => ?_, fun hj => hj ▸ hlead⟩⟩
  exact one_leader_per_term hreach j 0 1 hj hlead

end RaftLabs.Raft
