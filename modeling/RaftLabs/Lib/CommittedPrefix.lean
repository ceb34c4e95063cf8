import RaftLabs.Lib.ReplicatedLogSteps

/-! What is known to be committed.

`Covered T k` says that the first `k` indices are committed in term `T` or an
earlier one, `Known v k` that in addition voter `v` holds them and has reached that
term. Both are facts about the past and survive every step; only a crash can make
a voter forget how far it knew, down to its compacted prefix. -/
namespace RaftLabs.Lib.ReplicatedLog
variable {V E : Type} [Fintype V] {a a' : ReplicatedLog V E} {termOf : E → Nat}
variable {T T' i k k' s : Nat} {v u : V}

/-- The first `k` indices are committed in a term not after `T`. -/
def Covered (a : ReplicatedLog V E) (T k : Nat) : Prop :=
  k = 0 ∨ ∃ Tc i, a.Committed Tc i ∧ Tc ≤ T ∧ k ≤ i

/-- Voter `v` holds the first `k` indices and they are committed, in a term it has
reached. -/
def Known (a : ReplicatedLog V E) (v : V) (k : Nat) : Prop :=
  k = 0 ∨ ∃ Tc i, a.Committed Tc i ∧ Tc ≤ (a.voter v).term ∧ k ≤ i ∧
    AgreeOn (a.voter v).log (a.leaderLog Tc) 0 k

/-- The first `k` entries of voter `v` are those of the leader of term `T`. -/
def Follows (a : ReplicatedLog V E) (v : V) (T k : Nat) : Prop :=
  AgreeOn (a.voter v).log (a.leaderLog T) 0 k ∧ k ≤ (a.leaderLog T).length

theorem Covered.mono (h : a.Covered T k) (hT : T ≤ T') (hk : k' ≤ k) : a.Covered T' k' := by
  rcases h with hz | ⟨Tc, i, hc, hTc, hi⟩
  · exact .inl (by omega)
  · exact .inr ⟨Tc, i, hc, Nat.le_trans hTc hT, Nat.le_trans hk hi⟩

theorem Known.mono (h : a.Known v k) (hk : k' ≤ k) : a.Known v k' := by
  rcases h with hz | ⟨Tc, i, hc, hTc, hi, hagree⟩
  · exact .inl (by omega)
  · exact .inr ⟨Tc, i, hc, hTc, Nat.le_trans hk hi, hagree.mono (Nat.le_refl 0) hk⟩

theorem Known.max (h : a.Known v k) (h' : a.Known v k') : a.Known v (max k k') := by
  rcases Nat.le_total k k' with hle | hle
  · rw [Nat.max_eq_right hle]
    exact h'
  · rw [Nat.max_eq_left hle]
    exact h

omit [Fintype V] in
theorem Follows.max (h : a.Follows v T k) (h' : a.Follows v T k') : a.Follows v T (max k k') := by
  rcases Nat.le_total k k' with hle | hle
  · rw [Nat.max_eq_right hle]
    exact h'
  · rw [Nat.max_eq_left hle]
    exact h

theorem Known.covered (h : a.Known v k) : a.Covered (a.voter v).term k := by
  rcases h with hz | ⟨Tc, i, hc, hTc, hi, _⟩
  · exact .inl hz
  · exact .inr ⟨Tc, i, hc, hTc, hi⟩

theorem Known.le_length (h : a.Known v k) : k ≤ (a.voter v).log.length := by
  rcases h with hz | ⟨Tc, i, hc, _, hi, hagree⟩
  · omega
  · exact hagree.le_length_of_zero (Nat.le_trans hi hc.1.2)

namespace Sound
variable (h : a.Sound termOf)
include h

/-- The leader of a term has what is covered there. -/
theorem covered_agree (hled : a.leader T ≠ none) {Tc : Nat} (hc : a.Committed Tc i) (hTc : Tc ≤ T)
    (hk : k ≤ i) : AgreeOn (a.leaderLog T) (a.leaderLog Tc) 0 k :=
  (h.agree hTc hled hc.1 hc.choosable).mono (Nat.le_refl 0) hk

theorem covered_le_length (hled : a.leader T ≠ none) (hcov : a.Covered T k) :
    k ≤ (a.leaderLog T).length := by
  rcases hcov with hz | ⟨Tc, i, hc, hTc, hi⟩
  · omega
  · exact (h.covered_agree hled hc hTc hi).le_length_of_zero (Nat.le_trans hi hc.1.2)

/-- What a voter knows, the leader of its term or a later one has too. -/
theorem known_agree (hk : a.Known v k) (hled : a.leader T ≠ none) (hT : (a.voter v).term ≤ T) :
    AgreeOn (a.voter v).log (a.leaderLog T) 0 k := by
  rcases hk with hz | ⟨Tc, i, hc, hTc, hi, hagree⟩
  · intro j _ hj
    omega
  · exact hagree.trans (h.covered_agree hled hc (Nat.le_trans hTc hT) hi).symm

theorem follows_of_known (hk : a.Known v k) (hled : a.leader T ≠ none)
    (hT : (a.voter v).term ≤ T) : a.Follows v T k :=
  ⟨h.known_agree hk hled hT,
    h.covered_le_length hled (hk.covered.mono hT (Nat.le_refl k))⟩

/-- A voter whose log agrees with the leader of its term knows what is covered there. -/
theorem known_of_covered (hcov : a.Covered T k) (hled : a.leader T ≠ none)
    (hT : (a.voter v).term = T) (hagree : AgreeOn (a.voter v).log (a.leaderLog T) 0 k) :
    a.Known v k := by
  rcases hcov with hz | ⟨Tc, i, hc, hTc, hi⟩
  · exact .inl hz
  · exact .inr ⟨Tc, i, hc, Nat.le_trans hTc (Nat.le_of_eq hT.symm), hi,
      hagree.trans (h.covered_agree hled hc hTc hi)⟩

/-- The compacted prefix is known, even after a crash. -/
theorem known_snap : a.Known v (a.voter v).snap := by
  rcases (h.voters v).compacted with hz | ⟨Tc, i, hc, hTc, hi, hagree⟩
  · exact .inl hz
  · exact .inr ⟨Tc, i, hc, Nat.le_trans hTc (h.voters v).durable_le, hi, hagree⟩

/-- A majority that has confirmed an own index of its leader, or knows it covered, has
committed it. -/
theorem committed_of_majority (hown : a.Own T i) {Q : Finset V} (hQ : Majority Q)
    (hack : ∀ u ∈ Q, i ≤ (a.voter u).acked T ∨ a.Covered T i) : a.Committed T i := by
  by_cases hcov : a.Covered T i
  · rcases hcov with hz | ⟨Tc, j, hc, hTc, hj⟩
    · exact absurd hown.1 (by omega)
    · rcases Nat.lt_or_eq_of_le hTc with hlt | rfl
      · -- an own entry of `T` cannot be in the log of an earlier leader
        obtain ⟨e, he, heT⟩ := h.own_entry hown
        have hpos := hown.1
        have hag := h.covered_agree (h.led hown) hc hTc hj
        have hin := (hag (i - 1) (Nat.zero_le _) (by omega)).symm.trans he
        have := h.term_le hin
        omega
      · exact hc.of_le hown.1 hj
  · exact ⟨hown, Q, hQ, fun u hu => (hack u hu).resolve_right hcov⟩

end Sound

/-! ### Along the steps -/

theorem Covered.evolve (hcov : a.Covered T k) (h : a.Sound termOf) (ev : Evolves a a') :
    a'.Covered T k :=
  hcov.imp_right fun ⟨Tc, i, hc, hrest⟩ => ⟨Tc, i, ev.committed h hc, hrest⟩

/-- Knowledge survives when the voter keeps its term and the known part of its log. -/
theorem Known.evolve (hk : a.Known v k) (h : a.Sound termOf) (ev : Evolves a a')
    (hterm : (a.voter v).term ≤ (a'.voter v).term)
    (hlog : AgreeOn (a'.voter v).log (a.voter v).log 0 k) : a'.Known v k := by
  rcases hk with hz | ⟨Tc, i, hc, hTc, hi, hagree⟩
  · exact .inl hz
  · exact .inr ⟨Tc, i, ev.committed h hc, Nat.le_trans hTc hterm, hi,
      hlog.trans (ev.agreeOn hagree (Nat.le_trans hi hc.1.2))⟩

omit [Fintype V] in
theorem Follows.evolve (hf : a.Follows v T k) (ev : Evolves a a')
    (hlog : AgreeOn (a'.voter v).log (a.voter v).log 0 k) : a'.Follows v T k :=
  ⟨hlog.trans (ev.agreeOn hf.1 hf.2), Nat.le_trans hf.2 (ev.length_le T)⟩

theorem Known.of_voter_eq (hk : a.Known v k) (h : a.Sound termOf) (ev : Evolves a a')
    (heq : a'.voter v = a.voter v) : a'.Known v k := by
  refine hk.evolve h ev (by rw [heq]) ?_
  rw [heq]
  exact .refl _ _ _

variable [DecidableEq V]

theorem Known.setVoter {x : Voter E} (hk : a.Known u k) (h : a.Sound termOf)
    (hadv : Advances a (a.voter v) x)
    (hx : u = v → (a.voter v).term ≤ x.term ∧ AgreeOn x.log (a.voter v).log 0 k) :
    (a.setVoter v x).Known u k := by
  have ev := Evolves.setVoter hadv
  by_cases hu : u = v
  · subst hu
    refine hk.evolve h ev ?_ ?_ <;> rw [setVoter_self]
    · exact (hx rfl).1
    · exact (hx rfl).2
  · exact hk.of_voter_eq h ev (setVoter_ne x hu)

theorem Known.setTerm {d t : Nat} (hk : a.Known u k) (h : a.Sound termOf)
    (hd : (a.voter v).durable ≤ d) (ht : (a.voter v).term ≤ t) : (a.setTerm v d t).Known u k :=
  hk.setVoter h ⟨hd, fun _ => Nat.le_refl _, fun _ _ => rfl, .inl rfl⟩ fun _ =>
    ⟨ht, .refl _ _ _⟩

theorem Known.trim (hk : a.Known u k) (h : a.Sound termOf) : (a.trim v s).Known u k :=
  hk.setVoter h ⟨Nat.le_refl _, fun _ => Nat.le_refl _, fun _ _ => rfl, .inl rfl⟩ fun _ =>
    ⟨Nat.le_refl _, .refl _ _ _⟩

theorem Known.confirm (hk : a.Known u k) (h : a.Sound termOf) (hdur : (a.voter v).durable ≤ T) :
    (a.confirm v T s).Known u k :=
  hk.setVoter h (advances_acked hdur (Nat.le_max_left _ _) (.inl rfl)) fun _ =>
    ⟨Nat.le_refl _, .refl _ _ _⟩

omit [Fintype V] in
/-- What a log shares with the leader's from the start is before their first difference,
so it stays when the leader's entries replace the rest. -/
theorem replace_log_agree (hdiff : ¬ AgreeOn (a.voter v).log (a.leaderLog T) (a.voter v).snap s)
    (hagree : AgreeOn (a.voter v).log (a.leaderLog T) 0 k) :
    AgreeOn ((a.replace v T s).voter v).log (a.voter v).log 0 k := by
  rw [replace_voter_self]
  intro j hj hjk
  have hjs : j < s := by
    by_contra hge
    exact hdiff (hagree.mono (Nat.zero_le _) (by omega))
  rw [hagree j hj hjk]
  exact List.getElem?_take_of_lt hjs

omit [Fintype V] in
/-- It also stays when the leader's prefix is installed. -/
theorem install_log_agree (hs : s ≤ (a.leaderLog T).length)
    (hagree : AgreeOn (a.voter v).log (a.leaderLog T) 0 k) :
    AgreeOn ((a.install v T s).voter v).log (a.voter v).log 0 k := by
  rw [install_voter_self]
  have hlen : ((a.leaderLog T).take s).length = s := by
    rw [List.length_take]
    omega
  intro j hj hjk
  by_cases hjs : j < s
  · rw [hagree j hj hjk, List.getElem?_append_left (by omega), List.getElem?_take_of_lt hjs]
  · rw [List.getElem?_append_right (by omega), List.getElem?_drop, hlen]
    congr 1
    omega

theorem Known.replace (hk : a.Known v k) (h : a.Sound termOf) (hled : a.leader T ≠ none)
    (hdur : (a.voter v).durable = T) (hterm : (a.voter v).term = T)
    (hdiff : ¬ AgreeOn (a.voter v).log (a.leaderLog T) (a.voter v).snap s) :
    (a.replace v T s).Known v k := by
  refine hk.evolve h (Evolves.replace hled hdur) ?_ ?_
  · rw [replace_voter_self]
  · exact replace_log_agree hdiff (h.known_agree hk hled (Nat.le_of_eq hterm))

theorem Known.install (hk : a.Known v k) (h : a.Sound termOf) (hled : a.leader T ≠ none)
    (hdur : (a.voter v).durable = T) (hterm : (a.voter v).term = T)
    (hs : s ≤ (a.leaderLog T).length) : (a.install v T s).Known v k := by
  refine hk.evolve h (Evolves.install hled hdur) ?_ ?_
  · rw [install_voter_self]
  · exact install_log_agree hs (h.known_agree hk hled (Nat.le_of_eq hterm))

theorem Known.elect (hk : a.Known u k) (h : a.Sound termOf) (hnone : a.leader T = none)
    (hdur : (a.voter v).durable = T) : (a.elect v T).Known u k := by
  have ev := Evolves.elect h hnone hdur
  by_cases hu : u = v
  · subst hu
    refine hk.evolve h ev ?_ ?_ <;> rw [elect_voter_self]
    exact .refl _ _ _
  · exact hk.of_voter_eq h ev (elect_voter_ne hu)

theorem Known.extend {e : E} (hk : a.Known u k) (h : a.Sound termOf) (hled : a.leader T = some v)
    (hdur : (a.voter v).durable = T) : (a.extend v T e).Known u k := by
  have ev := Evolves.extend (e := e) h hled hdur
  by_cases hu : u = v
  · subst hu
    refine hk.evolve h ev ?_ ?_ <;> rw [extend_voter_self]
    exact agreeOn_append _ _ hk.le_length
  · exact hk.of_voter_eq h ev (extend_voter_ne hu)

/-! ### A voter's steps together -/

/-- A step, or several, of one voter that forgets nothing. -/
structure VoterStep (termOf : E → Nat) (a a' : ReplicatedLog V E) (v : V) : Prop where
  sound : a'.Sound termOf
  evolves : Evolves a a'
  others : ∀ u, u ≠ v → a'.voter u = a.voter u
  leader : a'.leader = a.leader
  leaderLog : a'.leaderLog = a.leaderLog
  known : ∀ k, a.Known v k → a'.Known v k

namespace VoterStep

omit [DecidableEq V] in
theorem refl (h : a.Sound termOf) : VoterStep termOf a a v :=
  ⟨h, .refl a, fun _ _ => rfl, rfl, rfl, fun _ hk => hk⟩

omit [DecidableEq V] in
theorem trans {a'' : ReplicatedLog V E} (h : VoterStep termOf a a' v)
    (h' : VoterStep termOf a' a'' v) : VoterStep termOf a a'' v where
  sound := h'.sound
  evolves := h.evolves.trans h'.evolves
  others u hu := (h'.others u hu).trans (h.others u hu)
  leader := h'.leader.trans h.leader
  leaderLog := h'.leaderLog.trans h.leaderLog
  known k hk := h'.known k (h.known k hk)

theorem setTerm (h : a.Sound termOf) {d t : Nat} (hd : (a.voter v).durable ≤ d) (hdt : d ≤ t)
    (ht : (a.voter v).term ≤ t) : VoterStep termOf a (a.setTerm v d t) v where
  sound := h.setTerm hd hdt
  evolves := .setTerm hd
  others _ hu := setVoter_ne _ hu
  leader := rfl
  leaderLog := rfl
  known _ hk := hk.setTerm h hd ht

theorem trim (h : a.Sound termOf) (hs : (a.voter v).snap ≤ s) (hdur : (a.voter v).durable =
    (a.voter v).term) (hk : a.Known v s) : VoterStep termOf a (a.trim v s) v where
  sound := by
    refine h.trim hs hk.le_length (hk.imp_right fun ⟨Tc, i, hc, hTc, hrest⟩ => ?_)
    exact ⟨Tc, i, hc, hdur ▸ hTc, hrest⟩
  evolves := .trim
  others _ hu := setVoter_ne _ hu
  leader := rfl
  leaderLog := rfl
  known _ hk := hk.trim h

theorem confirm (h : a.Sound termOf) (hled : a.leader T ≠ none) (hdur : (a.voter v).durable ≤ T)
    (hsnap : (a.voter v).snap < k) (hk : k ≤ (a.leaderLog T).length)
    (hagree : AgreeOn (a.voter v).log (a.leaderLog T) (a.voter v).snap k) :
    VoterStep termOf a (a.confirm v T k) v where
  sound := h.confirm hled hdur hsnap hk hagree
  evolves := .confirm hdur
  others _ hu := setVoter_ne _ hu
  leader := rfl
  leaderLog := rfl
  known _ hk := hk.confirm h hdur

theorem replace (h : a.Sound termOf) {L : V} (hled : a.leader T = some L) (hL : L ≠ v)
    (hdur : (a.voter v).durable = T) (hterm : (a.voter v).term = T) (hsnap : (a.voter v).snap < k)
    (hk : k ≤ (a.leaderLog T).length)
    (hdiff : ¬ AgreeOn (a.voter v).log (a.leaderLog T) (a.voter v).snap k) :
    VoterStep termOf a (a.replace v T k) v := by
  have hne : a.leader T ≠ none := by
    rw [hled]
    exact Option.some_ne_none L
  exact ⟨h.replace hled hL hdur hsnap hk hdiff, .replace hne hdur, fun _ hu => setVoter_ne _ hu,
    rfl, rfl, fun _ hk => hk.replace h hne hdur hterm hdiff⟩

theorem install (h : a.Sound termOf) {L : V} (hled : a.leader T = some L) (hL : L ≠ v)
    (hdur : (a.voter v).durable = T) (hterm : (a.voter v).term = T)
    (hsnap : (a.voter v).snap < s) (hcov : a.Covered T s) :
    VoterStep termOf a (a.install v T s) v := by
  have hne : a.leader T ≠ none := by
    rw [hled]
    exact Option.some_ne_none L
  have hlen := h.covered_le_length hne hcov
  obtain ⟨Tc, i, hc, hTc, hi⟩ := hcov.resolve_left (by omega)
  exact ⟨h.install hled hL hdur (Nat.le_of_lt hsnap) hc hTc hi, .install hne hdur,
    fun _ hu => setVoter_ne _ hu, rfl, rfl, fun _ hk => hk.install h hne hdur hterm hlen⟩

end VoterStep

/-! ### All steps together -/

/-- A step: facts that were established stay, and leaders are elected and add to their logs
only in the term they are in. -/
structure Succeeds (a a' : ReplicatedLog V E) : Prop where
  evolves : Evolves a a'
  leads : ∀ T v, a'.leader T = some v →
    (a'.voter v).term = T ∨ a.leader T = some v ∧ a'.leaderLog T = a.leaderLog T

namespace Succeeds

omit [Fintype V] [DecidableEq V] in
theorem refl (a : ReplicatedLog V E) : Succeeds a a :=
  ⟨.refl a, fun _ _ hT => .inr ⟨hT, rfl⟩⟩

omit [DecidableEq V] in
theorem ofVoter (h : VoterStep termOf a a' v) : Succeeds a a' where
  evolves := h.evolves
  leads T u hT := .inr ⟨h.leader ▸ hT, by rw [h.leaderLog]⟩

theorem elect (h : a.Sound termOf) (hnone : a.leader T = none) (hdur : (a.voter v).durable = T)
    (hterm : (a.voter v).term = T) : Succeeds a (a.elect v T) where
  evolves := .elect h hnone hdur
  leads T' u hT := by
    by_cases heq : T' = T
    · subst heq
      rw [elect_leader_self] at hT
      cases hT
      rw [elect_voter_self]
      exact .inl hterm
    · rw [elect_leader_ne heq] at hT
      exact .inr ⟨hT, elect_leaderLog_ne heq⟩

theorem extend {e : E} (h : a.Sound termOf) (hled : a.leader T = some v)
    (hdur : (a.voter v).durable = T) (hterm : (a.voter v).term = T) :
    Succeeds a (a.extend v T e) where
  evolves := .extend h hled hdur
  leads T' u hT := by
    by_cases heq : T' = T
    · subst heq
      cases Option.some.inj (hled.symm.trans hT)
      rw [extend_voter_self]
      exact .inl hterm
    · exact .inr ⟨hT, extend_leaderLog_ne heq⟩

end Succeeds

end RaftLabs.Lib.ReplicatedLog
