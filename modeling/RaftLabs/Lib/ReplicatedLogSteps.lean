import RaftLabs.Lib.ReplicatedLog

/-! The steps of a replicated log and why each keeps the invariant.

All but two steps change one voter and no leader: it raises its term, makes it
durable, loses it in a crash, confirms or takes over a leader's entries, installs
a committed prefix or compacts its own. For these `Sound.setVoter` leaves only the
invariant of that voter to check. The other two are the election of a leader and a
leader's new entry. `Evolves` is what every step has in common; facts that were
once established are carried along it. -/
namespace RaftLabs.Lib.ReplicatedLog
variable {V E : Type} {a a' : ReplicatedLog V E} {termOf : E → Nat}
variable {T T' i k s : Nat} {v u : V}

/-! ### Evolution -/

/-- Leaders keep their terms and only add to their logs; voters only confirm more, and
nothing of a term they have left for good; a log changes only in a new durable term
or in a led one. -/
structure Evolves (a a' : ReplicatedLog V E) : Prop where
  leader : ∀ T v, a.leader T = some v → a'.leader T = some v
  leaderLog : ∀ T, AgreeOn (a'.leaderLog T) (a.leaderLog T) 0 (a.leaderLog T).length
  base : ∀ T, a.leader T ≠ none → a'.base T = a.base T
  acked : ∀ v T, (a.voter v).acked T ≤ (a'.voter v).acked T
  frozen : ∀ v T, T < (a.voter v).durable → (a'.voter v).acked T = (a.voter v).acked T
  durable : ∀ v, (a.voter v).durable ≤ (a'.voter v).durable
  log : ∀ v, (a'.voter v).log = (a.voter v).log ∨ (a.voter v).durable < (a'.voter v).durable ∨
    a'.leader (a'.voter v).durable ≠ none

namespace Evolves

theorem refl (a : ReplicatedLog V E) : Evolves a a where
  leader _ _ h := h
  leaderLog _ := .refl _ _ _
  base _ _ := rfl
  acked _ _ := Nat.le_refl _
  frozen _ _ _ := rfl
  durable _ := Nat.le_refl _
  log _ := .inl rfl

theorem trans {a'' : ReplicatedLog V E} (ev : Evolves a a') (ev' : Evolves a' a'') :
    Evolves a a'' where
  leader T v h := ev'.leader T v (ev.leader T v h)
  leaderLog T := ((ev'.leaderLog T).mono (Nat.le_refl 0)
    ((ev.leaderLog T).le_length_of_zero (Nat.le_refl _))).trans (ev.leaderLog T)
  base T h := by
    obtain ⟨v, hv⟩ := Option.ne_none_iff_exists'.mp h
    refine (ev'.base T ?_).trans (ev.base T h)
    rw [ev.leader T v hv]
    exact Option.some_ne_none v
  acked v T := Nat.le_trans (ev.acked v T) (ev'.acked v T)
  frozen v T h := (ev'.frozen v T (Nat.lt_of_lt_of_le h (ev.durable v))).trans (ev.frozen v T h)
  durable v := Nat.le_trans (ev.durable v) (ev'.durable v)
  log v := by
    have hd := ev.durable v
    have hd' := ev'.durable v
    rcases ev'.log v with hlog' | hlt | hled
    · rcases ev.log v with hlog | hlt | hled
      · exact .inl (hlog'.trans hlog)
      · exact .inr (.inl (by omega))
      · by_cases heq : (a'.voter v).durable = (a''.voter v).durable
        · obtain ⟨u, hu⟩ := Option.ne_none_iff_exists'.mp hled
          refine .inr (.inr ?_)
          rw [← heq, ev'.leader _ u hu]
          exact Option.some_ne_none u
        · exact .inr (.inl (by omega))
    · exact .inr (.inl (by omega))
    · exact .inr (.inr hled)

variable (ev : Evolves a a')
include ev

theorem led (h : a.leader T ≠ none) : a'.leader T ≠ none := by
  obtain ⟨v, hv⟩ := Option.ne_none_iff_exists'.mp h
  rw [ev.leader T v hv]
  exact Option.some_ne_none v

theorem length_le (T : Nat) : (a.leaderLog T).length ≤ (a'.leaderLog T).length :=
  (ev.leaderLog T).le_length_of_zero (Nat.le_refl _)

/-- An entry of a leader's log stays. -/
theorem entry {j : Nat} {e : E} (he : (a.leaderLog T)[j]? = some e) :
    (a'.leaderLog T)[j]? = some e :=
  (ev.leaderLog T j (Nat.zero_le j) (List.getElem?_eq_some_iff.mp he).1).trans he

/-- Agreement with a leader's log, as far as that log goes, stays. -/
theorem agreeOn {l : List E} {lo hi : Nat} (h : AgreeOn l (a.leaderLog T) lo hi)
    (hhi : hi ≤ (a.leaderLog T).length) : AgreeOn l (a'.leaderLog T) lo hi :=
  h.trans ((ev.leaderLog T).symm.mono (Nat.zero_le _) hhi)

variable [Fintype V]

theorem choosable (h : a'.Choosable T i) : a.Choosable T i := by
  obtain ⟨Q, hQ, hv⟩ := h
  refine ⟨Q, hQ, fun v hvQ => ?_⟩
  by_cases hdur : (a.voter v).durable ≤ T
  · exact .inl hdur
  · have hlt := Nat.lt_of_not_le hdur
    rw [← ev.frozen v T hlt]
    refine .inr ((hv v hvQ).resolve_left ?_)
    have := ev.durable v
    omega

variable (h : a.Sound termOf)
include h

theorem own (hown : a.Own T i) : a'.Own T i := by
  refine ⟨?_, Nat.le_trans hown.2 (ev.length_le T)⟩
  rw [ev.base T (h.led hown)]
  exact hown.1

/-- An own index is one from the start as soon as the log reaches it. -/
theorem own_of_le (hown : a'.Own T i) (hlen : i ≤ (a.leaderLog T).length) : a.Own T i := by
  have hled : a.leader T ≠ none := by
    intro hnone
    have := hown.1
    rw [h.vacant T hnone, List.length_nil] at hlen
    omega
  exact ⟨ev.base T hled ▸ hown.1, hlen⟩

theorem committed (hc : a.Committed T i) : a'.Committed T i := by
  obtain ⟨hown, Q, hQ, hacked⟩ := hc
  exact ⟨ev.own h hown, Q, hQ, fun v hv => Nat.le_trans (hacked v hv) (ev.acked v T)⟩

/-- Nothing new is choosable in a term once a later term has a leader. -/
theorem own_of_choosable [DecidableEq V] (hlt : T < T') (hled : a.leader T' ≠ none)
    (hown : a'.Own T i) (hch : a'.Choosable T i) : a.Own T i := by
  obtain ⟨Q, hQ, hdur⟩ := h.elected T' hled
  obtain ⟨Q', hQ', hack⟩ := hch
  obtain ⟨v, hv, hv'⟩ := hQ.inter hQ'
  have hbefore : T < (a.voter v).durable := Nat.lt_of_lt_of_le hlt (hdur v hv)
  have hacked : i ≤ (a.voter v).acked T := by
    rw [← ev.frozen v T hbefore]
    refine (hack v hv').resolve_left ?_
    have := ev.durable v
    omega
  exact ev.own_of_le h hown (Nat.le_trans hacked ((h.voters v).acked_le T))

/-- A leader stays complete. -/
theorem complete [DecidableEq V] (hlt : T < T') (hled : a.leader T' ≠ none)
    (hown : a'.Own T i) (hch : a'.Choosable T i) :
    AgreeOn (a'.leaderLog T') (a'.leaderLog T) 0 i := by
  have hown₀ := ev.own_of_choosable h hlt hled hown hch
  have hagree := h.complete T T' i hlt hled hown₀ (ev.choosable hch)
  have hlen := hagree.le_length_of_zero hown₀.2
  refine AgreeOn.trans ?_ (ev.agreeOn hagree hown₀.2)
  exact (ev.leaderLog T').mono (Nat.le_refl _) hlen

/-- Matching carries over for the entries that were there. -/
theorem matching {j : Nat} {e : E} (he : (a.leaderLog T)[j]? = some e) :
    AgreeOn (a'.leaderLog T) (a'.leaderLog (termOf e)) 0 (j + 1) := by
  have hagree := h.matching T j e he
  have hlen : j + 1 ≤ (a.leaderLog T).length := (List.getElem?_eq_some_iff.mp he).1
  refine AgreeOn.trans ((ev.leaderLog T).mono (Nat.le_refl 0) hlen) (ev.agreeOn hagree ?_)
  exact hagree.symm.le_length_of_zero hlen

/-- A voter that did not change keeps its invariant, unless it is the leader whose log
grew or was just elected. -/
theorem voterSound [DecidableEq V] {x : Voter E} (hx : a.VoterSound termOf v x)
    (hled : ∀ T, a'.leader T = some v → a.leader T = some v)
    (hsame : ∀ T, a.leader T = some v → a'.leaderLog T = a.leaderLog T) :
    a'.VoterSound termOf v x where
  retained j e he hj := by
    obtain ⟨hle, hagree⟩ := hx.retained j e he hj
    refine ⟨hle, ev.agreeOn hagree ?_⟩
    exact hagree.symm.le_length (by omega) (List.getElem?_eq_some_iff.mp he).1
  snap_le := hx.snap_le
  compacted := by
    rcases hx.compacted with hz | ⟨T, i, hc, hT, hi, hagree⟩
    · exact .inl hz
    · exact .inr ⟨T, i, ev.committed h hc, hT, hi, ev.agreeOn hagree (Nat.le_trans hi hc.1.2)⟩
  acked_le T := Nat.le_trans (hx.acked_le T) (ev.length_le T)
  keep T i hown hch hhold := by
    have hown₀ : a.Own T i := by
      rcases hhold with hack | ⟨T', hlt, hT'⟩
      · exact ev.own_of_le h hown (Nat.le_trans hack (hx.acked_le T))
      · refine ev.own_of_choosable h hlt ?_ hown hch
        rw [hled T' hT']
        exact Option.some_ne_none v
    obtain ⟨hdur, hagree, hafter⟩ := hx.keep T i hown₀ (ev.choosable hch)
      (hhold.imp_right fun ⟨T', hlt, hT'⟩ => ⟨T', hlt, hled T' hT'⟩)
    exact ⟨hdur, ev.agreeOn hagree hown₀.2, hafter⟩
  leading T hT := by
    rw [hsame T (hled T hT)]
    exact hx.leading T (hled T hT)
  durable_le := hx.durable_le

end Evolves

/-! ### Steps of one voter -/

section SetVoter
variable [DecidableEq V]

def setVoter (a : ReplicatedLog V E) (v : V) (x : Voter E) : ReplicatedLog V E :=
  { a with voter := Function.update a.voter v x }

@[simp] theorem setVoter_self (x : Voter E) : (a.setVoter v x).voter v = x := by
  simp [setVoter]

theorem setVoter_ne (x : Voter E) (h : u ≠ v) : (a.setVoter v x).voter u = a.voter u := by
  simp [setVoter, h]

@[simp] theorem setVoter_leader (x : Voter E) : (a.setVoter v x).leader = a.leader := rfl

@[simp] theorem setVoter_leaderLog (x : Voter E) : (a.setVoter v x).leaderLog = a.leaderLog := rfl

@[simp] theorem setVoter_base (x : Voter E) : (a.setVoter v x).base = a.base := rfl

/-- What a voter may turn into: its durable term and its confirmations do not shrink,
what it confirmed of terms it has left is settled, and its log changes only on the
word of a leader. -/
structure Advances (a : ReplicatedLog V E) (x x' : Voter E) : Prop where
  durable : x.durable ≤ x'.durable
  acked : ∀ T, x.acked T ≤ x'.acked T
  frozen : ∀ T, T < x.durable → x'.acked T = x.acked T
  log : x'.log = x.log ∨ a.leader x'.durable ≠ none

theorem Evolves.setVoter {x : Voter E} (hx : Advances a (a.voter v) x) :
    Evolves a (a.setVoter v x) := by
  have hall : ∀ u, Advances a (a.voter u) ((a.setVoter v x).voter u) := by
    intro u
    by_cases hu : u = v
    · subst hu
      rw [setVoter_self]
      exact hx
    · rw [setVoter_ne x hu]
      exact ⟨Nat.le_refl _, fun _ => Nat.le_refl _, fun _ _ => rfl, .inl rfl⟩
  exact ⟨fun _ _ h => h, fun _ => .refl _ _ _, fun _ _ => rfl, fun u => (hall u).acked,
    fun u => (hall u).frozen, fun u => (hall u).durable, fun u => (hall u).log.imp_right .inr⟩

variable [Fintype V]

/-- **One voter advances**: only its own invariant has to be checked, against the old
state. -/
theorem Sound.setVoter (h : a.Sound termOf) {x : Voter E} (hadv : Advances a (a.voter v) x)
    (hx : a.VoterSound termOf v x) : (a.setVoter v x).Sound termOf := by
  have ev := Evolves.setVoter hadv
  refine ⟨h.vacant, h.base_le, h.inherited, h.added, h.matching, ?_, ?_,
    fun T u hT => Nat.le_trans (h.counted T u hT) (ev.acked u T), fun u => ?_⟩
  · intro T T' i hlt hled hown hch
    exact ev.complete h hlt hled hown hch
  · intro T hled
    obtain ⟨Q, hQ, hdur⟩ := h.elected T hled
    exact ⟨Q, hQ, fun u hu => Nat.le_trans (hdur u hu) (ev.durable u)⟩
  · by_cases hu : u = v
    · subst hu
      rw [setVoter_self]
      exact ev.voterSound h hx (fun _ hT => hT) fun _ _ => rfl
    · rw [setVoter_ne x hu]
      exact ev.voterSound h (h.voters u) (fun _ hT => hT) fun _ _ => rfl

/-! ### Terms, compaction, confirmation -/

omit [DecidableEq V] in
/-- A log ends after every entry that is not compacted. -/
theorem VoterSound.endsAfter (h : a.Sound termOf) {x : Voter E} (hx : a.VoterSound termOf v x)
    {j : Nat} {e : E} (he : x.log[j]? = some e) (hj : x.snap ≤ j) :
    EndsAfter termOf x.log (termOf e) (j + 1) := by
  have hlen := (List.getElem?_eq_some_iff.mp he).1
  obtain ⟨m, last, hm, hlast, hterm⟩ := exists_last termOf (l := x.log) (by
    rintro hnil
    rw [hnil] at he
    cases he)
  have hagree := (hx.retained m last hlast (by omega)).2
  have hin : (a.leaderLog (termOf last))[j]? = some e :=
    (hagree j hj (by omega)).symm.trans he
  have hle := h.term_le hin
  unfold EndsAfter
  rw [hterm]
  omega

omit [DecidableEq V] in
theorem VoterSound.setTerm {x : Voter E} {d t : Nat} (hx : a.VoterSound termOf v x)
    (hd : x.durable ≤ d) (ht : d ≤ t) :
    a.VoterSound termOf v { x with durable := d, term := t } where
  retained j e he hj :=
    ⟨Nat.le_trans (hx.retained j e he hj).1 hd, (hx.retained j e he hj).2⟩
  snap_le := hx.snap_le
  compacted := hx.compacted.imp_right fun ⟨T, i, hc, hT, hrest⟩ =>
    ⟨T, i, hc, Nat.le_trans hT hd, hrest⟩
  acked_le := hx.acked_le
  keep T i hown hch hhold :=
    ⟨Nat.le_trans (hx.keep T i hown hch hhold).1 hd, (hx.keep T i hown hch hhold).2⟩
  leading T hT := by
    obtain ⟨hle, hlog⟩ := hx.leading T hT
    exact ⟨Nat.le_trans hle hd, fun heq : d = T => hlog (by omega)⟩
  durable_le := ht

/-- The voter's term and durable term move: up with a message, the durable one up to
the other when it is saved, the other back to the durable one in a crash. -/
def setTerm (a : ReplicatedLog V E) (v : V) (d t : Nat) : ReplicatedLog V E :=
  a.setVoter v { a.voter v with durable := d, term := t }

omit [Fintype V] in
theorem setTerm_voter_self {d t : Nat} :
    (a.setTerm v d t).voter v = { a.voter v with durable := d, term := t } :=
  setVoter_self _

omit [Fintype V] in
theorem Evolves.setTerm {d t : Nat} (hd : (a.voter v).durable ≤ d) : Evolves a (a.setTerm v d t) :=
  .setVoter ⟨hd, fun _ => Nat.le_refl _, fun _ _ => rfl, .inl rfl⟩

theorem Sound.setTerm (h : a.Sound termOf) {d t : Nat} (hd : (a.voter v).durable ≤ d)
    (ht : d ≤ t) : (a.setTerm v d t).Sound termOf :=
  h.setVoter ⟨hd, fun _ => Nat.le_refl _, fun _ _ => rfl, .inl rfl⟩ ((h.voters v).setTerm hd ht)

/-- The voter compacts its log up to `s`. -/
def trim (a : ReplicatedLog V E) (v : V) (s : Nat) : ReplicatedLog V E :=
  a.setVoter v { a.voter v with snap := s }

omit [Fintype V] in
theorem trim_voter_self : (a.trim v s).voter v = { a.voter v with snap := s } :=
  setVoter_self _

omit [Fintype V] in
theorem Evolves.trim : Evolves a (a.trim v s) :=
  .setVoter ⟨Nat.le_refl _, fun _ => Nat.le_refl _, fun _ _ => rfl, .inl rfl⟩

theorem Sound.trim (h : a.Sound termOf) (hs : (a.voter v).snap ≤ s)
    (hlen : s ≤ (a.voter v).log.length)
    (hc : s = 0 ∨ ∃ T i, a.Committed T i ∧ T ≤ (a.voter v).durable ∧ s ≤ i ∧
      AgreeOn (a.voter v).log (a.leaderLog T) 0 s) : (a.trim v s).Sound termOf := by
  have hx := h.voters v
  refine h.setVoter ⟨Nat.le_refl _, fun _ => Nat.le_refl _, fun _ _ => rfl, .inl rfl⟩ ?_
  refine ⟨fun j e he hj => ?_, hlen, hc, hx.acked_le, hx.keep, hx.leading, hx.durable_le⟩
  obtain ⟨hle, hagree⟩ := hx.retained j e he (Nat.le_trans hs hj)
  exact ⟨hle, hagree.mono hs (Nat.le_refl _)⟩

/-- The voter confirms the log of the leader of term `T` up to `k`. -/
def confirm (a : ReplicatedLog V E) (v : V) (T k : Nat) : ReplicatedLog V E :=
  a.setVoter v { a.voter v with
    acked := Function.update (a.voter v).acked T (max ((a.voter v).acked T) k) }

omit [Fintype V] in
theorem confirm_voter_self : (a.confirm v T k).voter v = { a.voter v with
    acked := Function.update (a.voter v).acked T (max ((a.voter v).acked T) k) } :=
  setVoter_self _

omit [DecidableEq V] [Fintype V] in
/-- Confirming more of the term, with a log that may change in a led term. -/
theorem advances_acked {x : Voter E} {l : List E} (hdur : x.durable ≤ T) (hk : x.acked T ≤ k)
    (hl : l = x.log ∨ a.leader x.durable ≠ none) :
    Advances a x { x with log := l, acked := Function.update x.acked T k } where
  durable := Nat.le_refl _
  acked T' := by
    dsimp only
    by_cases hT : T' = T
    · subst hT
      rw [Function.update_self]
      exact hk
    · rw [Function.update_of_ne hT]
  frozen T' hT' := by
    dsimp only
    exact Function.update_of_ne (by omega) _ _
  log := hl

omit [Fintype V] in
theorem Evolves.confirm (hdur : (a.voter v).durable ≤ T) : Evolves a (a.confirm v T k) :=
  .setVoter (advances_acked hdur (Nat.le_max_left _ _) (.inl rfl))

omit [DecidableEq V] in
/-- The invariant of a voter that has confirmed more: what is left to show is that it
keeps what it confirmed. -/
theorem VoterSound.confirm {x : Voter E} (hx : a.VoterSound termOf v x)
    (hk : k ≤ (a.leaderLog T).length)
    (hkeep : ∀ i, i ≤ k → a.Own T i →
      T ≤ x.durable ∧ AgreeOn x.log (a.leaderLog T) 0 i ∧ EndsAfter termOf x.log T i) :
    a.VoterSound termOf v { x with
      acked := Function.update x.acked T (max (x.acked T) k) } where
  retained := hx.retained
  snap_le := hx.snap_le
  compacted := hx.compacted
  acked_le T' := by
    dsimp only
    by_cases hT : T' = T
    · subst hT
      rw [Function.update_self]
      exact Nat.max_le.mpr ⟨hx.acked_le T', hk⟩
    · rw [Function.update_of_ne hT]
      exact hx.acked_le T'
  keep T' i hown hch hhold := by
    by_cases hold : i ≤ x.acked T' ∨ ∃ T'', T' < T'' ∧ a.leader T'' = some v
    · exact hx.keep T' i hown hch hold
    · have hack := hhold.resolve_right fun hled => hold (.inr hled)
      dsimp only at hack
      by_cases hT : T' = T
      · subst hT
        rw [Function.update_self] at hack
        refine hkeep i ?_ hown
        have : ¬ i ≤ x.acked T' := fun hle => hold (.inl hle)
        omega
      · rw [Function.update_of_ne hT] at hack
        exact absurd (.inl hack) hold
  leading := hx.leading
  durable_le := hx.durable_le

/-- Confirming is sound for a voter whose log agrees with the leader's from the
compacted prefix on. -/
theorem Sound.confirm (h : a.Sound termOf) (hled : a.leader T ≠ none)
    (hdur : (a.voter v).durable ≤ T) (hsnap : (a.voter v).snap < k)
    (hk : k ≤ (a.leaderLog T).length)
    (hagree : AgreeOn (a.voter v).log (a.leaderLog T) (a.voter v).snap k) :
    (a.confirm v T k).Sound termOf := by
  have hx := h.voters v
  refine h.setVoter (advances_acked hdur (Nat.le_max_left _ _) (.inl rfl))
    (hx.confirm hk fun i hi hown => ?_)
  -- entry `k` is the leader's own, and the voter holds it
  have hlast : k - 1 < (a.leaderLog T).length := by omega
  have heT := List.getElem?_eq_getElem hlast
  have hterm := h.added T (k - 1) _ heT (by have := hown.1; omega)
  have he := (hagree (k - 1) (by omega) (by omega)).trans heT
  have hall := (h.compacted_agree hdur hled).join hagree
  refine ⟨?_, hall.mono (Nat.le_refl 0) hi, ?_⟩
  · have := (hx.retained (k - 1) _ he (by omega)).1
    omega
  · have := hx.endsAfter h he (by omega)
    rw [hterm] at this
    exact this.mono (by omega)

/-! ### Taking over a leader's log -/

/-- The voter's log becomes the leader's up to `k`, which it confirms. -/
def replace (a : ReplicatedLog V E) (v : V) (T k : Nat) : ReplicatedLog V E :=
  a.setVoter v { a.voter v with
    log := (a.leaderLog T).take k
    acked := Function.update (a.voter v).acked T (max ((a.voter v).acked T) k) }

omit [Fintype V] in
theorem replace_voter_self : (a.replace v T k).voter v = { a.voter v with
    log := (a.leaderLog T).take k
    acked := Function.update (a.voter v).acked T (max ((a.voter v).acked T) k) } :=
  setVoter_self _

omit [Fintype V] in
theorem Evolves.replace (hled : a.leader T ≠ none) (hdur : (a.voter v).durable = T) :
    Evolves a (a.replace v T k) :=
  .setVoter (advances_acked (Nat.le_of_eq hdur) (Nat.le_max_left _ _)
    (.inr (by rw [hdur]; exact hled)))

omit [DecidableEq V] in
/-- What a voter keeps is not after the first place where its log differs from that of
the leader of its term. -/
theorem Sound.keep_lt (h : a.Sound termOf) (hled : a.leader T ≠ none)
    (hdur : (a.voter v).durable = T) (hdiff : ¬ AgreeOn (a.voter v).log (a.leaderLog T)
      (a.voter v).snap k) {T₀ : Nat} (hown : a.Own T₀ i) (hch : a.Choosable T₀ i)
    (hhold : i ≤ (a.voter v).acked T₀ ∨ ∃ T', T₀ < T' ∧ a.leader T' = some v) :
    T₀ ≤ T ∧ i ≤ k := by
  obtain ⟨hle, hagree, _⟩ := (h.voters v).keep T₀ i hown hch hhold
  rw [hdur] at hle
  refine ⟨hle, ?_⟩
  by_contra hgt
  have hT := h.agree hle hled hown hch
  exact hdiff ((hagree.trans hT.symm).mono (Nat.zero_le _) (by omega))

theorem Sound.replace (h : a.Sound termOf) {L : V} (hled : a.leader T = some L) (hL : L ≠ v)
    (hdur : (a.voter v).durable = T) (hsnap : (a.voter v).snap < k)
    (hk : k ≤ (a.leaderLog T).length)
    (hdiff : ¬ AgreeOn (a.voter v).log (a.leaderLog T) (a.voter v).snap k) :
    (a.replace v T k).Sound termOf := by
  have hx := h.voters v
  have hne : a.leader T ≠ none := by
    rw [hled]
    exact Option.some_ne_none L
  have hlen : ((a.leaderLog T).take k).length = k := by
    rw [List.length_take]
    omega
  have htake : AgreeOn ((a.leaderLog T).take k) (a.leaderLog T) 0 k := fun j _ hj =>
    List.getElem?_take_of_lt hj
  -- the log as a prefix of the leader's
  have hnew : a.VoterSound termOf v { a.voter v with log := (a.leaderLog T).take k } := by
    constructor
    case retained =>
      intro j e he hj
      have hjk : j < k := hlen ▸ (List.getElem?_eq_some_iff.mp he).1
      have heT : (a.leaderLog T)[j]? = some e := (htake j (Nat.zero_le j) hjk).symm.trans he
      have hagree := (htake.mono (Nat.le_refl 0) hjk).trans (h.matching T j e heT)
      exact ⟨Nat.le_trans (h.term_le heT) (Nat.le_of_eq hdur.symm),
        hagree.mono (Nat.zero_le _) (Nat.le_refl _)⟩
    case snap_le =>
      show (a.voter v).snap ≤ ((a.leaderLog T).take k).length
      omega
    case compacted =>
      rcases hx.compacted with hz | ⟨Tc, i, hc, hTc, hi, _⟩
      · exact .inl hz
      · have hagree := (h.agree (hdur ▸ hTc) hne hc.1 hc.choosable).mono (Nat.le_refl 0) hi
        exact .inr ⟨Tc, i, hc, hTc, hi,
          (htake.mono (Nat.le_refl 0) (Nat.le_of_lt hsnap)).trans hagree⟩
    case acked_le => exact hx.acked_le
    case keep =>
      intro T₀ i hown hch hhold
      obtain ⟨hle, hik⟩ := h.keep_lt hne hdur hdiff hown hch hhold
      have hagree := h.agree hle hne hown hch
      exact ⟨hdur.symm ▸ hle, (htake.mono (Nat.le_refl 0) hik).trans hagree,
        h.endsAfter_of_agree hown hagree hik hk htake hlen⟩
    case leading =>
      intro T₀ hT₀
      refine ⟨(hx.leading T₀ hT₀).1, fun heq : (a.voter v).durable = T₀ => ?_⟩
      rw [← heq, hdur, hled] at hT₀
      exact absurd (Option.some.inj hT₀) hL
    case durable_le => exact hx.durable_le
  refine h.setVoter
    (advances_acked (Nat.le_of_eq hdur) (Nat.le_max_left _ _) (.inr (by rw [hdur]; exact hne)))
    (hnew.confirm hk fun i hi hown => ?_)
  exact ⟨Nat.le_of_eq hdur.symm, htake.mono (Nat.le_refl 0) hi,
    h.endsAfter_of_agree hown (.refl _ _ _) hi hk htake hlen⟩

/-- The voter replaces its first `s` entries by the leader's and compacts them. What
follows stays, whatever it is. -/
def install (a : ReplicatedLog V E) (v : V) (T s : Nat) : ReplicatedLog V E :=
  a.setVoter v { a.voter v with
    log := (a.leaderLog T).take s ++ (a.voter v).log.drop s
    snap := s }

omit [Fintype V] in
theorem install_voter_self : (a.install v T s).voter v = { a.voter v with
    log := (a.leaderLog T).take s ++ (a.voter v).log.drop s
    snap := s } :=
  setVoter_self _

omit [Fintype V] in
theorem Evolves.install (hled : a.leader T ≠ none) (hdur : (a.voter v).durable = T) :
    Evolves a (a.install v T s) :=
  .setVoter ⟨Nat.le_refl _, fun _ => Nat.le_refl _, fun _ _ => rfl,
    .inr (by show a.leader (a.voter v).durable ≠ none; rw [hdur]; exact hled)⟩

theorem Sound.install (h : a.Sound termOf) {L : V} (hled : a.leader T = some L) (hL : L ≠ v)
    (hdur : (a.voter v).durable = T) (hsnap : (a.voter v).snap ≤ s) {Tc k : Nat}
    (hc : a.Committed Tc k) (hTc : Tc ≤ T) (hs : s ≤ k) : (a.install v T s).Sound termOf := by
  have hx := h.voters v
  have hne : a.leader T ≠ none := by
    rw [hled]
    exact Option.some_ne_none L
  have hcT := (h.agree hTc hne hc.1 hc.choosable).mono (Nat.le_refl 0) hs
  have hsT : s ≤ (a.leaderLog T).length := hcT.le_length_of_zero (Nat.le_trans hs hc.1.2)
  have hslen : ((a.leaderLog T).take s).length = s := by
    rw [List.length_take]
    omega
  generalize hlog : (a.leaderLog T).take s ++ (a.voter v).log.drop s = log
  have hlow : AgreeOn log (a.leaderLog T) 0 s := by
    intro j _ hj
    rw [← hlog, List.getElem?_append_left (by omega), List.getElem?_take_of_lt hj]
  have hhigh : ∀ m, AgreeOn log (a.voter v).log s m := by
    intro m j hj _
    rw [← hlog, List.getElem?_append_right (by omega), List.getElem?_drop, hslen]
    congr 1
    omega
  have hlen : log.length = max s (a.voter v).log.length := by
    rw [← hlog, List.length_append, List.length_drop, hslen]
    omega
  refine h.setVoter ⟨Nat.le_refl _, fun _ => Nat.le_refl _, fun _ _ => rfl,
    .inr (by show a.leader (a.voter v).durable ≠ none; rw [hdur]; exact hne)⟩ ?_
  rw [hlog]
  constructor
  case retained =>
    intro j e he hj
    have hj' : s ≤ j := hj
    have heold : (a.voter v).log[j]? = some e :=
      (hhigh (j + 1) j hj' (Nat.lt_succ_self j)).symm.trans he
    obtain ⟨hle, hagree⟩ := hx.retained j e heold (Nat.le_trans hsnap hj')
    exact ⟨hle, (hhigh (j + 1)).trans (hagree.mono hsnap (Nat.le_refl _))⟩
  case snap_le =>
    show s ≤ log.length
    omega
  case compacted =>
    exact .inr ⟨Tc, k, hc, by rw [hdur]; exact hTc, hs, hlow.trans hcT⟩
  case acked_le => exact hx.acked_le
  case keep =>
    intro T₀ i hown hch hhold
    obtain ⟨hle, hagree, hafter⟩ := hx.keep T₀ i hown hch hhold
    have hT := h.agree (hdur ▸ hle) hne hown hch
    clear hhold
    refine ⟨hle, ?_, ?_⟩
    · intro j hj hji
      by_cases hjs : j < s
      · exact (hlow j hj hjs).trans (hT j hj hji)
      · exact (hhigh i j (by omega) hji).trans (hagree j hj hji)
    · have hi := hagree.le_length_of_zero hown.2
      by_cases hshort : (a.voter v).log.length ≤ s
      · -- the new log is the compacted prefix
        exact h.endsAfter_of_agree hown hT (by omega : i ≤ s) hsT hlow
          (by show log.length = s; omega)
      · -- the old end is still there
        have hlast : lastTerm termOf log = lastTerm termOf (a.voter v).log := by
          unfold lastTerm
          rw [List.getLast?_eq_getElem?, List.getLast?_eq_getElem?,
            hhigh log.length (log.length - 1) (by omega) (by omega), hlen,
            Nat.max_eq_right (by omega)]
        unfold EndsAfter at hafter ⊢
        show T₀ < lastTerm termOf log ∨ T₀ = lastTerm termOf log ∧ i ≤ log.length
        rw [hlast, hlen]
        omega
  case leading =>
    intro T₀ hT₀
    refine ⟨(hx.leading T₀ hT₀).1, fun heq : (a.voter v).durable = T₀ => ?_⟩
    rw [← heq, hdur, hled] at hT₀
    exact absurd (Option.some.inj hT₀) hL
  case durable_le => exact hx.durable_le

end SetVoter

/-! ### A new leader -/

section Elect
variable [DecidableEq V]

/-- Voter `v` becomes the leader of term `T` with the log it has. -/
def elect (a : ReplicatedLog V E) (v : V) (T : Nat) : ReplicatedLog V E where
  leader := Function.update a.leader T (some v)
  leaderLog := Function.update a.leaderLog T (a.voter v).log
  base := Function.update a.base T (a.voter v).log.length
  voter := Function.update a.voter v { a.voter v with
    acked := Function.update (a.voter v).acked T (a.voter v).log.length }

theorem elect_leader_self : (a.elect v T).leader T = some v := by simp [elect]

theorem elect_leader_ne (hT : T' ≠ T) : (a.elect v T).leader T' = a.leader T' := by
  simp [elect, hT]

theorem elect_leaderLog_self : (a.elect v T).leaderLog T = (a.voter v).log := by simp [elect]

theorem elect_leaderLog_ne (hT : T' ≠ T) : (a.elect v T).leaderLog T' = a.leaderLog T' := by
  simp [elect, hT]

theorem elect_base_ne (hT : T' ≠ T) : (a.elect v T).base T' = a.base T' := by
  simp [elect, hT]

theorem elect_voter_self : (a.elect v T).voter v = { a.voter v with
    acked := Function.update (a.voter v).acked T (a.voter v).log.length } := by
  simp [elect]

theorem elect_voter_ne (hu : u ≠ v) : (a.elect v T).voter u = a.voter u := by
  simp [elect, hu]

/-- The new leader has nothing of its own yet. -/
theorem elect_own {T₀ : Nat} (hown : (a.elect v T).Own T₀ i) : T₀ ≠ T ∧ a.Own T₀ i := by
  have hT : T₀ ≠ T := by
    rintro rfl
    obtain ⟨hlo, hhi⟩ := hown
    rw [elect_leaderLog_self] at hhi
    simp only [ReplicatedLog.elect, Function.update_self] at hlo
    omega
  unfold Own at hown ⊢
  rw [elect_leaderLog_ne hT, elect_base_ne hT] at hown
  exact ⟨hT, hown⟩

variable [Fintype V]

theorem Evolves.elect (h : a.Sound termOf) (hnone : a.leader T = none)
    (hdur : (a.voter v).durable = T) : Evolves a (a.elect v T) := by
  have hne : ∀ T', a.leader T' ≠ none → T' ≠ T := by
    rintro T' hled rfl
    exact hled hnone
  have hvoter : ∀ u, (a.voter u).durable = ((a.elect v T).voter u).durable ∧
      (a.voter u).log = ((a.elect v T).voter u).log ∧
      (∀ T', T' ≠ T → ((a.elect v T).voter u).acked T' = (a.voter u).acked T') := by
    intro u
    by_cases hu : u = v
    · subst hu
      rw [elect_voter_self]
      exact ⟨rfl, rfl, fun T' hT' => Function.update_of_ne hT' _ _⟩
    · rw [elect_voter_ne hu]
      exact ⟨rfl, rfl, fun _ _ => rfl⟩
  refine ⟨fun T' u hu => ?_, fun T' => ?_, fun T' hT' => elect_base_ne (hne T' hT'), fun u T' => ?_,
    fun u T' hlt => ?_, fun u => Nat.le_of_eq (hvoter u).1, fun u => .inl (hvoter u).2.1.symm⟩
  · rw [elect_leader_ne (hne T' (by rw [hu]; exact Option.some_ne_none u))]
    exact hu
  · by_cases hT' : T' = T
    · subst hT'
      rw [h.vacant T' hnone]
      intro j _ hj
      exact absurd hj (Nat.not_lt_zero j)
    · rw [elect_leaderLog_ne hT']
      exact .refl _ _ _
  · by_cases hT' : T' = T
    · subst hT'
      have := (h.voters u).acked_le T'
      rw [h.vacant T' hnone, List.length_nil] at this
      omega
    · exact Nat.le_of_eq ((hvoter u).2.2 T' hT').symm
  · by_cases hT' : T' = T
    · subst hT'
      by_cases hu : u = v
      · subst hu
        omega
      · rw [elect_voter_ne hu]
    · exact (hvoter u).2.2 T' hT'

/-- The term has no leader, the voter has reached it, and the voter's log ends after
everything of earlier terms that is still choosable. -/
structure Electable (termOf : E → Nat) (a : ReplicatedLog V E) (v : V) (T : Nat) : Prop where
  vacant : a.leader T = none
  reached : (a.voter v).durable = T
  after : ∀ T₀ i, T₀ < T → a.Own T₀ i → a.Choosable T₀ i → EndsAfter termOf (a.voter v).log T₀ i

/-- A majority that has reached the term makes a voter electable, when what each member
has confirmed of earlier terms is not after the end of the voter's log. -/
theorem electable_of_majority (hnone : a.leader T = none) (hdur : (a.voter v).durable = T)
    {Q : Finset V} (hQ : Majority Q) (hreached : ∀ u ∈ Q, T ≤ (a.voter u).durable)
    (hback : ∀ u ∈ Q, ∀ T₀ i, T₀ < T → a.Own T₀ i → a.Choosable T₀ i →
      i ≤ (a.voter u).acked T₀ → EndsAfter termOf (a.voter v).log T₀ i) :
    Electable termOf a v T := by
  refine ⟨hnone, hdur, fun T₀ i hlt hown hch => ?_⟩
  obtain ⟨Q', hQ', hack⟩ := hch
  obtain ⟨u, hu, hu'⟩ := hQ.inter hQ'
  refine hback u hu T₀ i hlt hown ⟨Q', hQ', hack⟩ ((hack u hu').resolve_left ?_)
  have := hreached u hu
  omega

section Electable
variable (h : a.Sound termOf) (hel : Electable termOf a v T)
include h hel

omit [DecidableEq V] in
theorem Electable.committed_after (T₀ i : Nat) (hc : a.Committed T₀ i)
    (hle : T₀ ≤ (a.voter v).durable) : EndsAfter termOf (a.voter v).log T₀ i := by
  refine hel.after T₀ i (Nat.lt_of_le_of_ne (hel.reached ▸ hle) ?_) hc.1 hc.choosable
  rintro rfl
  exact h.led hc.1 hel.vacant

omit [DecidableEq V] in
theorem Electable.term_lt {j : Nat} {e : E} (he : (a.voter v).log[j]? = some e) :
    termOf e < T := by
  obtain ⟨T₁, heT, hT₁⟩ := h.entry_led he
  refine Nat.lt_of_le_of_lt (h.term_le heT) (Nat.lt_of_le_of_ne (hel.reached ▸ hT₁) ?_)
  rintro rfl
  rw [h.vacant _ hel.vacant] at heT
  cases heT

omit [DecidableEq V] in
/-- Its log matches the leaders of its entries' terms from the start. -/
theorem Electable.matching {j : Nat} {e : E} (he : (a.voter v).log[j]? = some e) :
    AgreeOn (a.voter v).log (a.leaderLog (termOf e)) 0 (j + 1) := by
  have hne : (a.voter v).log ≠ [] := by
    intro hnil
    rw [hnil] at he
    cases he
  have hlt := (List.getElem?_eq_some_iff.mp he).1
  have hproper := (h.proper (hel.committed_after h) hne).mono (Nat.le_refl 0) hlt
  have heT := (hproper j (Nat.zero_le j) (Nat.lt_succ_self j)).symm.trans he
  exact hproper.trans (h.matching _ j e heT)

theorem Electable.voterSound : (a.elect v T).VoterSound termOf v ((a.elect v T).voter v) := by
  have hx := h.voters v
  have ev := Evolves.elect h hel.vacant hel.reached
  rw [elect_voter_self]
  constructor
  case retained =>
    intro j e he hj
    obtain ⟨hle, hagree⟩ := hx.retained j e he hj
    rw [elect_leaderLog_ne (Nat.ne_of_lt (hel.term_lt h he))]
    exact ⟨hle, hagree⟩
  case snap_le => exact hx.snap_le
  case compacted =>
    rcases hx.compacted with hz | ⟨Tc, i, hc, hTc, hi, hagree⟩
    · exact .inl hz
    · exact .inr ⟨Tc, i, ev.committed h hc, hTc, hi, ev.agreeOn hagree (Nat.le_trans hi hc.1.2)⟩
  case acked_le =>
    intro T₁
    dsimp only
    by_cases hT : T₁ = T
    · subst hT
      rw [Function.update_self, elect_leaderLog_self]
    · rw [Function.update_of_ne hT, elect_leaderLog_ne hT]
      exact hx.acked_le T₁
  case keep =>
    intro T₀ i hown hch hhold
    obtain ⟨hT, hown₀⟩ := elect_own hown
    have hch₀ := ev.choosable hch
    dsimp only at hhold
    rw [Function.update_of_ne hT] at hhold
    rw [elect_leaderLog_ne hT]
    by_cases hold : i ≤ (a.voter v).acked T₀ ∨ ∃ T', T₀ < T' ∧ a.leader T' = some v
    · exact hx.keep T₀ i hown₀ hch₀ hold
    · -- it holds the index as the new leader
      obtain ⟨T', hlt, hT'⟩ := hhold.resolve_left fun hack => hold (.inl hack)
      have hTT : T' = T := by
        by_contra hne
        rw [elect_leader_ne hne] at hT'
        exact hold (.inr ⟨T', hlt, hT'⟩)
      subst hTT
      have hafter := hel.after T₀ i hlt hown₀ hch₀
      refine ⟨?_, h.contains (hel.committed_after h) hown₀ hch₀ hafter, hafter⟩
      show T₀ ≤ (a.voter v).durable
      rw [hel.reached]
      exact Nat.le_of_lt hlt
  case leading =>
    intro T₁ hT₁
    by_cases hT : T₁ = T
    · subst hT
      rw [elect_leaderLog_self]
      exact ⟨Nat.le_of_eq hel.reached.symm, fun _ => rfl⟩
    · rw [elect_leader_ne hT] at hT₁
      rw [elect_leaderLog_ne hT]
      exact hx.leading T₁ hT₁
  case durable_le => exact hx.durable_le

/-- **The election of an electable voter is sound.** -/
theorem Sound.elect {Q : Finset V} (hQ : Majority Q)
    (hreached : ∀ u ∈ Q, T ≤ (a.voter u).durable) : (a.elect v T).Sound termOf := by
  have ev := Evolves.elect h hel.vacant hel.reached
  constructor
  case vacant =>
    intro T₁ hT₁
    have hT : T₁ ≠ T := by
      rintro rfl
      rw [elect_leader_self] at hT₁
      cases hT₁
    rw [elect_leader_ne hT] at hT₁
    rw [elect_leaderLog_ne hT]
    exact h.vacant T₁ hT₁
  case base_le =>
    intro T₁
    by_cases hT : T₁ = T
    · subst hT
      simp [ReplicatedLog.elect]
    · rw [elect_base_ne hT, elect_leaderLog_ne hT]
      exact h.base_le T₁
  case inherited =>
    intro T₁ j e he hj
    by_cases hT : T₁ = T
    · subst hT
      rw [elect_leaderLog_self] at he
      exact hel.term_lt h he
    · rw [elect_leaderLog_ne hT] at he
      rw [elect_base_ne hT] at hj
      exact h.inherited T₁ j e he hj
  case added =>
    intro T₁ j e he hj
    by_cases hT : T₁ = T
    · subst hT
      rw [elect_leaderLog_self] at he
      simp only [ReplicatedLog.elect, Function.update_self] at hj
      have := (List.getElem?_eq_some_iff.mp he).1
      omega
    · rw [elect_leaderLog_ne hT] at he
      rw [elect_base_ne hT] at hj
      exact h.added T₁ j e he hj
  case matching =>
    intro T₁ j e he
    by_cases hT : T₁ = T
    · subst hT
      rw [elect_leaderLog_self] at he ⊢
      rw [elect_leaderLog_ne (Nat.ne_of_lt (hel.term_lt h he))]
      exact hel.matching h he
    · rw [elect_leaderLog_ne hT] at he
      exact ev.matching h he
  case complete =>
    intro T₀ T₁ i hlt hled hown hch
    obtain ⟨hT, hown₀⟩ := elect_own hown
    by_cases hT₁ : T₁ = T
    · subst hT₁
      rw [elect_leaderLog_self, elect_leaderLog_ne hT]
      have hch₀ := ev.choosable hch
      exact h.contains (hel.committed_after h) hown₀ hch₀ (hel.after T₀ i hlt hown₀ hch₀)
    · rw [elect_leader_ne hT₁] at hled
      exact ev.complete h hlt hled hown hch
  case elected =>
    intro T₁ hT₁
    by_cases hT : T₁ = T
    · subst hT
      exact ⟨Q, hQ, fun u hu => Nat.le_trans (hreached u hu) (ev.durable u)⟩
    · rw [elect_leader_ne hT] at hT₁
      obtain ⟨Q₁, hQ₁, hdur⟩ := h.elected T₁ hT₁
      exact ⟨Q₁, hQ₁, fun u hu => Nat.le_trans (hdur u hu) (ev.durable u)⟩
  case counted =>
    intro T₁ u hu
    by_cases hT : T₁ = T
    · subst hT
      rw [elect_leader_self] at hu
      cases hu
      rw [elect_leaderLog_self, elect_voter_self]
      simp
    · rw [elect_leader_ne hT] at hu
      rw [elect_leaderLog_ne hT]
      exact Nat.le_trans (h.counted T₁ u hu) (ev.acked u T₁)
  case voters =>
    intro u
    by_cases hu : u = v
    · subst hu
      exact hel.voterSound h
    · rw [elect_voter_ne hu]
      have hT : ∀ T₁, (a.elect v T).leader T₁ = some u → T₁ ≠ T := by
        rintro T₁ hT₁ rfl
        rw [elect_leader_self] at hT₁
        exact hu (Option.some.inj hT₁).symm
      refine ev.voterSound h (h.voters u) (fun T₁ hT₁ => ?_) fun T₁ hT₁ => ?_
      · rw [← elect_leader_ne (hT T₁ hT₁)]
        exact hT₁
      · refine elect_leaderLog_ne ?_
        rintro rfl
        rw [hel.vacant] at hT₁
        cases hT₁

end Electable
end Elect

/-! ### A leader's new entry -/

section Extend
variable [DecidableEq V] {e : E}

/-- The leader `v` of term `T` adds an entry. -/
def extend (a : ReplicatedLog V E) (v : V) (T : Nat) (e : E) : ReplicatedLog V E where
  leader := a.leader
  leaderLog := Function.update a.leaderLog T (a.leaderLog T ++ [e])
  base := a.base
  voter := Function.update a.voter v { a.voter v with
    log := (a.voter v).log ++ [e]
    acked := Function.update (a.voter v).acked T ((a.leaderLog T).length + 1) }

theorem extend_leaderLog_self : (a.extend v T e).leaderLog T = a.leaderLog T ++ [e] := by
  simp [extend]

theorem extend_leaderLog_ne (hT : T' ≠ T) : (a.extend v T e).leaderLog T' = a.leaderLog T' := by
  simp [extend, hT]

theorem extend_voter_self : (a.extend v T e).voter v = { a.voter v with
    log := (a.voter v).log ++ [e]
    acked := Function.update (a.voter v).acked T ((a.leaderLog T).length + 1) } := by
  simp [extend]

theorem extend_voter_ne (hu : u ≠ v) : (a.extend v T e).voter u = a.voter u := by
  simp [extend, hu]

variable [Fintype V]

theorem Evolves.extend (h : a.Sound termOf) (hled : a.leader T = some v)
    (hdur : (a.voter v).durable = T) : Evolves a (a.extend v T e) := by
  have hall : ∀ u, Advances a (a.voter u) ((a.extend v T e).voter u) := by
    intro u
    by_cases hu : u = v
    · subst hu
      rw [extend_voter_self]
      refine advances_acked (Nat.le_of_eq hdur) ?_ (.inr ?_)
      · exact Nat.le_succ_of_le ((h.voters u).acked_le T)
      · rw [hdur, hled]
        exact Option.some_ne_none u
    · rw [extend_voter_ne hu]
      exact ⟨Nat.le_refl _, fun _ => Nat.le_refl _, fun _ _ => rfl, .inl rfl⟩
  refine ⟨fun _ _ hT => hT, fun T' => ?_, fun _ _ => rfl, fun u => (hall u).acked,
    fun u => (hall u).frozen, fun u => (hall u).durable, fun u => (hall u).log.imp_right .inr⟩
  by_cases hT : T' = T
  · subst hT
    rw [extend_leaderLog_self]
    exact agreeOn_append _ _ (Nat.le_refl _)
  · rw [extend_leaderLog_ne hT]
    exact .refl _ _ _

section Sound
variable (h : a.Sound termOf) (hled : a.leader T = some v) (hdur : (a.voter v).durable = T)

omit [Fintype V] in
/-- An entry of a leader's log is an old one or the new one. -/
theorem extend_entry {T₁ j : Nat} {e₁ : E} (h₁ : ((a.extend v T e).leaderLog T₁)[j]? = some e₁) :
    (a.leaderLog T₁)[j]? = some e₁ ∨ (T₁ = T ∧ j = (a.leaderLog T).length ∧ e₁ = e) := by
  by_cases hT : T₁ = T
  · subst hT
    rw [extend_leaderLog_self, List.getElem?_append] at h₁
    split at h₁
    · exact .inl h₁
    · have hj := (List.getElem?_eq_some_iff.mp h₁).1
      rw [List.length_singleton] at hj
      rw [show j - (a.leaderLog T₁).length = 0 by omega] at h₁
      exact .inr ⟨rfl, by omega, (Option.some.inj h₁).symm⟩
  · rw [extend_leaderLog_ne hT] at h₁
    exact .inl h₁

include h hled hdur

theorem extend_matching (he : termOf e = T) {T₁ j : Nat} {e₁ : E}
    (h₁ : ((a.extend v T e).leaderLog T₁)[j]? = some e₁) :
    AgreeOn ((a.extend v T e).leaderLog T₁) ((a.extend v T e).leaderLog (termOf e₁)) 0 (j + 1) := by
  rcases extend_entry h₁ with hold | ⟨rfl, rfl, rfl⟩
  · exact (Evolves.extend h hled hdur).matching h hold
  · rw [he]
    exact .refl _ _ _

/-- The leader's own log ends with the new entry. -/
theorem extend_log (he : termOf e = T) :
    (a.voter v).log ++ [e] = (a.extend v T e).leaderLog T ∧
      lastTerm termOf ((a.voter v).log ++ [e]) = T := by
  refine ⟨?_, ?_⟩
  · rw [((h.voters v).leading T hled).2 hdur, extend_leaderLog_self]
  · rw [← he]
    exact lastTerm_eq (j := (a.voter v).log.length) (by simp) (by simp)

theorem extend_voterSound (he : termOf e = T) :
    (a.extend v T e).VoterSound termOf v ((a.extend v T e).voter v) := by
  have hx := h.voters v
  have ev := Evolves.extend (e := e) h hled hdur
  obtain ⟨hlog, hlast⟩ := extend_log h hled hdur he
  rw [extend_voter_self]
  constructor
  case retained =>
    intro j e₁ h₁ hj
    dsimp only at h₁ ⊢
    rw [hlog] at h₁ ⊢
    refine ⟨?_, (extend_matching h hled hdur he h₁).mono (Nat.zero_le _) (Nat.le_refl _)⟩
    rcases extend_entry h₁ with hold | ⟨_, _, rfl⟩
    · exact Nat.le_trans (h.term_le hold) (Nat.le_of_eq hdur.symm)
    · omega
  case snap_le =>
    exact Nat.le_trans hx.snap_le (by simp)
  case compacted =>
    rcases hx.compacted with hz | ⟨Tc, i, hc, hTc, hi, hagree⟩
    · exact .inl hz
    · refine .inr ⟨Tc, i, ev.committed h hc, hTc, hi, ?_⟩
      exact (agreeOn_append _ _ hx.snap_le).trans (ev.agreeOn hagree (Nat.le_trans hi hc.1.2))
  case acked_le =>
    intro T₁
    dsimp only
    by_cases hT : T₁ = T
    · subst hT
      rw [Function.update_self, extend_leaderLog_self, List.length_append, List.length_singleton]
    · rw [Function.update_of_ne hT, extend_leaderLog_ne hT]
      exact hx.acked_le T₁
  case keep =>
    intro T₀ i hown hch hhold
    dsimp only at hhold ⊢
    by_cases hT : T₀ = T
    · subst hT
      refine ⟨Nat.le_of_eq hdur.symm, by rw [hlog]; exact .refl _ _ _, .inr ⟨hlast.symm, ?_⟩⟩
      rw [hlog]
      exact hown.2
    · unfold Own at hown
      rw [extend_leaderLog_ne hT] at hown ⊢
      rw [Function.update_of_ne hT] at hhold
      obtain ⟨hle, hagree, _⟩ := hx.keep T₀ i hown (ev.choosable hch) hhold
      refine ⟨hle, (agreeOn_append _ _ (hagree.le_length_of_zero hown.2)).trans hagree, .inl ?_⟩
      rw [hlast, ← hdur]
      exact Nat.lt_of_le_of_ne hle (by rw [hdur]; exact hT)
  case leading =>
    intro T₁ hT₁
    refine ⟨(hx.leading T₁ hT₁).1, fun heq : (a.voter v).durable = T₁ => ?_⟩
    rw [hdur] at heq
    subst heq
    exact hlog
  case durable_le => exact hx.durable_le

/-- **A leader's new entry is sound** while the leader has not left its term. -/
theorem Sound.extend (he : termOf e = T) : (a.extend v T e).Sound termOf := by
  have ev := Evolves.extend (e := e) h hled hdur
  constructor
  case vacant =>
    intro T₁ hT₁
    have hT : T₁ ≠ T := by
      rintro rfl
      rw [show a.leader T₁ = none from hT₁] at hled
      cases hled
    rw [extend_leaderLog_ne hT]
    exact h.vacant T₁ hT₁
  case base_le =>
    intro T₁
    exact Nat.le_trans (h.base_le T₁) (ev.length_le T₁)
  case inherited =>
    intro T₁ j e₁ h₁ hj
    rcases extend_entry h₁ with hold | ⟨rfl, rfl, rfl⟩
    · exact h.inherited T₁ j e₁ hold hj
    · exact absurd hj (Nat.not_lt_of_le (h.base_le T₁))
  case added =>
    intro T₁ j e₁ h₁ hj
    rcases extend_entry h₁ with hold | ⟨rfl, rfl, rfl⟩
    · exact h.added T₁ j e₁ hold hj
    · exact he
  case matching => exact fun T₁ j e₁ h₁ => extend_matching h hled hdur he h₁
  case complete => exact fun T₀ T₁ i hlt hled hown hch => ev.complete h hlt hled hown hch
  case elected =>
    intro T₁ hT₁
    obtain ⟨Q, hQ, hreached⟩ := h.elected T₁ hT₁
    exact ⟨Q, hQ, fun u hu => Nat.le_trans (hreached u hu) (ev.durable u)⟩
  case counted =>
    intro T₁ u hu
    by_cases hT : T₁ = T
    · subst hT
      cases hled.symm.trans hu
      rw [extend_leaderLog_self, extend_voter_self]
      simp
    · rw [extend_leaderLog_ne hT]
      exact Nat.le_trans (h.counted T₁ u hu) (ev.acked u T₁)
  case voters =>
    intro u
    by_cases hu : u = v
    · subst hu
      exact extend_voterSound h hled hdur he
    · rw [extend_voter_ne hu]
      refine ev.voterSound h (h.voters u) (fun _ hT₁ => hT₁) fun T₁ hT₁ => ?_
      refine extend_leaderLog_ne ?_
      rintro rfl
      rw [hled] at hT₁
      exact hu (Option.some.inj hT₁).symm

end Sound
end Extend

end RaftLabs.Lib.ReplicatedLog
