import RaftLabs.Lib.Majority
import Mathlib.Data.List.Basic

/-! A log replicated by terms with one leader each.

The state records, for every term, its leader and the log this leader has or had,
and for every voter the log it holds, the part of it that it has compacted away,
the term it is in, the term it would come back with after losing its memory, and
how much of each leader's log it has confirmed to hold. An index of a term is
committed when a majority has confirmed it, and choosable as long as it could
still be: no majority has moved to later terms without it.

Compaction makes this different from the textbook. A voter that receives a
compacted prefix keeps whatever followed it in its own log, so a log need not be
a prefix of any leader's log and its terms need not be sorted; only what follows
the compacted prefix matches a leader's log (`retained`). Such a log is harmless,
because who received it has not confirmed anything: what a voter has confirmed and
is still choosable stays in its log, and its last entry says so (`keep`). That is
all that an election needs. -/
namespace RaftLabs.Lib

/-! ### Lists that agree on a range -/

section AgreeOn
variable {E : Type}

/-- The lists have the same entries, or end, at every position from `lo` below `hi`. -/
def AgreeOn (l l' : List E) (lo hi : Nat) : Prop := ∀ j, lo ≤ j → j < hi → l[j]? = l'[j]?

variable {l l' l'' : List E} {lo m hi lo' hi' : Nat}

theorem AgreeOn.refl (l : List E) (lo hi : Nat) : AgreeOn l l lo hi := fun _ _ _ => rfl

theorem AgreeOn.symm (h : AgreeOn l l' lo hi) : AgreeOn l' l lo hi :=
  fun j hl hh => (h j hl hh).symm

theorem AgreeOn.trans (h : AgreeOn l l' lo hi) (h' : AgreeOn l' l'' lo hi) :
    AgreeOn l l'' lo hi :=
  fun j hl hh => (h j hl hh).trans (h' j hl hh)

theorem AgreeOn.mono (h : AgreeOn l l' lo hi) (hlo : lo ≤ lo') (hhi : hi' ≤ hi) :
    AgreeOn l l' lo' hi' :=
  fun j hl hh => h j (Nat.le_trans hlo hl) (Nat.lt_of_lt_of_le hh hhi)

theorem AgreeOn.join (h : AgreeOn l l' lo m) (h' : AgreeOn l l' m hi) :
    AgreeOn l l' lo hi := by
  intro j hl hh
  by_cases hj : j < m
  · exact h j hl hj
  · exact h' j (Nat.le_of_not_lt hj) hh

/-- A range that is not empty and ends inside one list ends inside the other. -/
theorem AgreeOn.le_length (h : AgreeOn l l' lo hi) (hlt : lo < hi) (hhi : hi ≤ l'.length) :
    hi ≤ l.length := by
  have hlast := h (hi - 1) (by omega) (by omega)
  rw [List.getElem?_eq_getElem (by omega : hi - 1 < l'.length)] at hlast
  have := (List.getElem?_eq_some_iff.mp hlast).1
  omega

theorem AgreeOn.le_length_of_zero (h : AgreeOn l l' 0 hi) (hhi : hi ≤ l'.length) :
    hi ≤ l.length := by
  by_cases hz : hi = 0
  · omega
  · exact h.le_length (by omega) hhi

theorem agreeOn_append (l m : List E) (hhi : hi ≤ l.length) : AgreeOn (l ++ m) l lo hi := by
  intro j _ hj
  exact List.getElem?_append_left (by omega)

/-- Agreement up to the length of both is equality. -/
theorem AgreeOn.eq (h : AgreeOn l l' 0 hi) (hl : l.length ≤ hi) (hl' : l'.length ≤ hi) :
    l = l' := by
  apply List.ext_getElem?
  intro j
  by_cases hj : j < hi
  · exact h j (Nat.zero_le j) hj
  · rw [List.getElem?_eq_none (by omega), List.getElem?_eq_none (by omega)]

end AgreeOn

/-! ### The state -/

/-- A voter: its term, the term it resumes with after a crash, its whole log, how much
of it is compacted, and how much of the log of each term's leader it has confirmed. -/
structure Voter (E : Type) where
  term : Nat
  durable : Nat
  log : List E
  snap : Nat
  acked : Nat → Nat

/-- The state of a replicated log with voters `V` and entries `E`. `leaderLog T` is
the log of the leader of term `T`, `base T` its length when that leader was elected. -/
structure ReplicatedLog (V E : Type) where
  leader : Nat → Option V
  leaderLog : Nat → List E
  base : Nat → Nat
  voter : V → Voter E

/-- The term of the last entry, 0 for an empty log. -/
def lastTerm {E : Type} (termOf : E → Nat) (l : List E) : Nat :=
  match l.getLast? with
  | none => 0
  | some e => termOf e

/-- The order of elections: the log ends at or after index `i` of term `T`. -/
def EndsAfter {E : Type} (termOf : E → Nat) (l : List E) (T i : Nat) : Prop :=
  T < lastTerm termOf l ∨ (T = lastTerm termOf l ∧ i ≤ l.length)

theorem EndsAfter.mono {E : Type} {termOf : E → Nat} {l : List E} {T i k : Nat}
    (h : EndsAfter termOf l T k) (hi : i ≤ k) : EndsAfter termOf l T i :=
  h.imp_right fun ⟨hT, hk⟩ => ⟨hT, Nat.le_trans hi hk⟩

namespace ReplicatedLog
variable {V E : Type} [Fintype V] (a : ReplicatedLog V E)

/-- Index `i` holds an entry that the leader of term `T` added itself. -/
def Own (T i : Nat) : Prop := a.base T < i ∧ i ≤ (a.leaderLog T).length

/-- A majority could still confirm index `i` of term `T`. -/
def Choosable (T i : Nat) : Prop :=
  ∃ Q : Finset V, Majority Q ∧ ∀ v ∈ Q, (a.voter v).durable ≤ T ∨ i ≤ (a.voter v).acked T

/-- A majority has confirmed index `i`, an entry of the term's own. -/
def Committed (T i : Nat) : Prop :=
  a.Own T i ∧ ∃ Q : Finset V, Majority Q ∧ ∀ v ∈ Q, i ≤ (a.voter v).acked T

/-- The invariant of one voter. -/
structure VoterSound (termOf : E → Nat) (v : V) (x : Voter E) : Prop where
  retained : ∀ j e, x.log[j]? = some e → x.snap ≤ j →
    termOf e ≤ x.durable ∧ AgreeOn x.log (a.leaderLog (termOf e)) x.snap (j + 1)
  snap_le : x.snap ≤ x.log.length
  compacted : x.snap = 0 ∨ ∃ T i, a.Committed T i ∧ T ≤ x.durable ∧ x.snap ≤ i ∧
    AgreeOn x.log (a.leaderLog T) 0 x.snap
  acked_le : ∀ T, x.acked T ≤ (a.leaderLog T).length
  keep : ∀ T i, a.Own T i → a.Choosable T i →
    (i ≤ x.acked T ∨ ∃ T', T < T' ∧ a.leader T' = some v) →
    T ≤ x.durable ∧ AgreeOn x.log (a.leaderLog T) 0 i ∧ EndsAfter termOf x.log T i
  leading : ∀ T, a.leader T = some v → T ≤ x.durable ∧ (x.durable = T → x.log = a.leaderLog T)
  durable_le : x.durable ≤ x.term

/-- The invariant of a replicated log. -/
structure Sound (termOf : E → Nat) : Prop where
  vacant : ∀ T, a.leader T = none → a.leaderLog T = []
  base_le : ∀ T, a.base T ≤ (a.leaderLog T).length
  inherited : ∀ T j e, (a.leaderLog T)[j]? = some e → j < a.base T → termOf e < T
  added : ∀ T j e, (a.leaderLog T)[j]? = some e → a.base T ≤ j → termOf e = T
  matching : ∀ T j e, (a.leaderLog T)[j]? = some e →
    AgreeOn (a.leaderLog T) (a.leaderLog (termOf e)) 0 (j + 1)
  complete : ∀ T T' i, T < T' → a.leader T' ≠ none → a.Own T i → a.Choosable T i →
    AgreeOn (a.leaderLog T') (a.leaderLog T) 0 i
  elected : ∀ T, a.leader T ≠ none →
    ∃ Q : Finset V, Majority Q ∧ ∀ u ∈ Q, T ≤ (a.voter u).durable
  counted : ∀ T v, a.leader T = some v → (a.leaderLog T).length ≤ (a.voter v).acked T
  voters : ∀ v, a.VoterSound termOf v (a.voter v)

/-- Nobody has done anything. -/
def empty (V E : Type) : ReplicatedLog V E where
  leader := fun _ => none
  leaderLog := fun _ => []
  base := fun _ => 0
  voter := fun _ => { term := 0, durable := 0, log := [], snap := 0, acked := fun _ => 0 }

theorem sound_empty (termOf : E → Nat) : (empty V E).Sound termOf where
  vacant _ _ := rfl
  base_le _ := Nat.zero_le _
  inherited _ _ _ h := nomatch h
  added _ _ _ h := nomatch h
  matching _ _ _ h := nomatch h
  complete _ _ _ _ h := absurd rfl h
  elected _ h := absurd rfl h
  counted _ _ h := nomatch h
  voters _ :=
    { retained := fun _ _ h => nomatch h
      snap_le := Nat.zero_le _
      compacted := .inl rfl
      acked_le := fun _ => Nat.zero_le _
      keep := fun _ _ h => absurd (Nat.lt_of_lt_of_le h.1 h.2) (Nat.lt_irrefl _)
      leading := fun _ h => nomatch h
      durable_le := Nat.zero_le _ }

/-! ### What the invariant implies -/

section Consequences
variable {a} {termOf : E → Nat} {T T' i i' j : Nat} {v : V} {e e' : E}

theorem Committed.choosable (h : a.Committed T i) : a.Choosable T i := by
  obtain ⟨_, Q, hQ, hacked⟩ := h
  exact ⟨Q, hQ, fun v hv => .inr (hacked v hv)⟩

/-- Indices of the term's own below a committed one are committed. -/
theorem Committed.of_le (h : a.Committed T i) (hown : a.base T < i') (hle : i' ≤ i) :
    a.Committed T i' := by
  obtain ⟨⟨_, hlen⟩, Q, hQ, hacked⟩ := h
  exact ⟨⟨hown, Nat.le_trans hle hlen⟩, Q, hQ, fun v hv => Nat.le_trans hle (hacked v hv)⟩

namespace Sound
variable (h : a.Sound termOf)
include h

theorem led (hown : a.Own T i) : a.leader T ≠ none := by
  intro hnone
  have hlen := hown.2
  rw [h.vacant T hnone] at hlen
  exact absurd (Nat.lt_of_lt_of_le hown.1 hlen) (Nat.not_lt_zero _)

theorem term_le (he : (a.leaderLog T)[j]? = some e) : termOf e ≤ T := by
  by_cases hj : j < a.base T
  · exact Nat.le_of_lt (h.inherited T j e he hj)
  · exact Nat.le_of_eq (h.added T j e he (Nat.le_of_not_lt hj))

/-- The terms of a leader's log are sorted. -/
theorem term_mono (he : (a.leaderLog T)[i]? = some e) (he' : (a.leaderLog T)[j]? = some e')
    (hle : i ≤ j) : termOf e ≤ termOf e' := by
  have hsame := h.matching T j e' he' i (Nat.zero_le i) (Nat.lt_succ_of_le hle)
  exact h.term_le (hsame.symm.trans he)

theorem own_entry (hown : a.Own T i) : ∃ e, (a.leaderLog T)[i - 1]? = some e ∧ termOf e = T := by
  obtain ⟨hbase, hlen⟩ := hown
  have hlt : i - 1 < (a.leaderLog T).length := by omega
  exact ⟨_, List.getElem?_eq_getElem hlt,
    h.added T (i - 1) _ (List.getElem?_eq_getElem hlt) (by omega)⟩

/-- The leader of a term has everything that is choosable in this or an earlier term. -/
theorem agree (hle : T ≤ T') (hlead : a.leader T' ≠ none) (hown : a.Own T i)
    (hch : a.Choosable T i) : AgreeOn (a.leaderLog T') (a.leaderLog T) 0 i := by
  rcases Nat.lt_or_eq_of_le hle with hlt | rfl
  · exact h.complete T T' i hlt hlead hown hch
  · exact .refl _ _ _

/-- **Agreement.** Committed logs agree as far as both are committed. -/
theorem committed_agree (hc : a.Committed T i) (hc' : a.Committed T' i') :
    AgreeOn (a.leaderLog T) (a.leaderLog T') 0 (min i i') := by
  rcases Nat.le_total T T' with hle | hle
  · have := h.agree hle (h.led hc'.1) hc.1 hc.choosable
    exact (this.mono (Nat.le_refl _) (Nat.min_le_left _ _)).symm
  · have := h.agree hle (h.led hc.1) hc'.1 hc'.choosable
    exact this.mono (Nat.le_refl _) (Nat.min_le_right _ _)

/-- The compacted prefix of a voter is in the log of the leader of its term. -/
theorem compacted_agree (hle : (a.voter v).durable ≤ T) (hlead : a.leader T ≠ none) :
    AgreeOn (a.voter v).log (a.leaderLog T) 0 (a.voter v).snap := by
  rcases (h.voters v).compacted with hz | ⟨Tc, i, hc, hTc, hsnap, hagree⟩
  · intro j _ hj
    omega
  · have := h.agree (Nat.le_trans hTc hle) hlead hc.1 hc.choosable
    exact hagree.trans (this.mono (Nat.le_refl _) hsnap).symm

/-- **Log matching** past the compacted prefix: entries of one term at one index end
equal slices. -/
theorem log_matching (he : (a.voter v).log[j]? = some e) (hj : (a.voter v).snap ≤ j)
    (he' : (a.leaderLog T)[j]? = some e') (hterm : termOf e = termOf e') :
    AgreeOn (a.voter v).log (a.leaderLog T) (a.voter v).snap (j + 1) := by
  have hv := ((h.voters v).retained j e he hj).2
  have hT := h.matching T j e' he'
  rw [hterm] at hv
  exact hv.trans (hT.symm.mono (Nat.zero_le _) (Nat.le_refl _))

/-- Every entry of a log was some leader's. -/
theorem entry_led (he : (a.voter v).log[j]? = some e) :
    ∃ T, (a.leaderLog T)[j]? = some e ∧ T ≤ (a.voter v).durable := by
  by_cases hj : (a.voter v).snap ≤ j
  · obtain ⟨hle, hagree⟩ := (h.voters v).retained j e he hj
    exact ⟨termOf e, (hagree j hj (Nat.lt_succ_self j)).symm.trans he, hle⟩
  · rcases (h.voters v).compacted with hz | ⟨T, i, _, hT, _, hagree⟩
    · omega
    · exact ⟨T, (hagree j (Nat.zero_le j) (by omega)).symm.trans he, hT⟩

theorem entry_term_le (he : (a.voter v).log[j]? = some e) : termOf e ≤ (a.voter v).durable := by
  obtain ⟨T, heT, hT⟩ := h.entry_led he
  exact Nat.le_trans (h.term_le heT) hT

end Sound

theorem lastTerm_eq {l : List E} (hlen : l.length = j + 1) (he : l[j]? = some e) :
    lastTerm termOf l = termOf e := by
  unfold lastTerm
  rw [List.getLast?_eq_getElem?, hlen, Nat.add_sub_cancel, he]

theorem exists_last (termOf : E → Nat) {l : List E} (hne : l ≠ []) :
    ∃ m e, l.length = m + 1 ∧ l[m]? = some e ∧ lastTerm termOf l = termOf e := by
  obtain ⟨m, hm⟩ : ∃ m, l.length = m + 1 :=
    Nat.exists_eq_succ_of_ne_zero fun hz => hne (List.length_eq_zero_iff.mp hz)
  have he : l[m]? = some (l[m]) := List.getElem?_eq_getElem (by omega)
  exact ⟨m, _, hm, he, lastTerm_eq hm he⟩

namespace Sound
variable (h : a.Sound termOf)
include h

/-- A log that is a leader's log up to `k` ends after everything it shares with an
earlier leader's own entries. -/
theorem endsAfter_of_agree {l : List E} {k : Nat} (hown : a.Own T i)
    (hagree : AgreeOn (a.leaderLog T') (a.leaderLog T) 0 i) (hik : i ≤ k)
    (hk : k ≤ (a.leaderLog T').length) (hl : AgreeOn l (a.leaderLog T') 0 k)
    (hlen : l.length = k) : EndsAfter termOf l T i := by
  obtain ⟨e, he, heT⟩ := h.own_entry hown
  have hpos : 0 < i := Nat.lt_of_le_of_lt (Nat.zero_le _) hown.1
  -- the last entry of `l`, and entry `i` of the leader whose term it has
  have hlast : k - 1 < (a.leaderLog T').length := by omega
  have he' := List.getElem?_eq_getElem hlast
  have hend : lastTerm termOf l = termOf (a.leaderLog T')[k - 1] := by
    refine lastTerm_eq (j := k - 1) (by omega) ?_
    rw [hl (k - 1) (Nat.zero_le _) (by omega)]
    exact he'
  have hm := h.matching T' (k - 1) _ he'
  have hi : (a.leaderLog (termOf (a.leaderLog T')[k - 1]))[i - 1]? = some e := by
    rw [← hm (i - 1) (Nat.zero_le _) (by omega), hagree (i - 1) (Nat.zero_le _) (by omega)]
    exact he
  have hle := h.term_le hi
  unfold EndsAfter
  rw [hend, hlen]
  omega

/-- A log whose end is after everything committed is a leader's log: no stale entries
follow its compacted prefix. -/
theorem proper (hend : ∀ T i, a.Committed T i → T ≤ (a.voter v).durable →
      EndsAfter termOf (a.voter v).log T i)
    (hne : (a.voter v).log ≠ []) :
    AgreeOn (a.voter v).log (a.leaderLog (lastTerm termOf ((a.voter v).log))) 0
      (a.voter v).log.length := by
  obtain ⟨m, e, hm, hlast, hterm⟩ := exists_last termOf hne
  rw [hterm, hm]
  by_cases hsnap : (a.voter v).snap ≤ m
  · -- the last entry is retained: it agrees down to the snapshot, the rest is committed
    have hr := ((h.voters v).retained m e hlast hsnap).2
    refine AgreeOn.join (m := (a.voter v).snap) ?_ hr
    rcases (h.voters v).compacted with hz | ⟨T, i, hc, hT, hi, hagree⟩
    · intro j _ hj
      omega
    · have hafter := hend T i hc hT
      rw [EndsAfter, hterm] at hafter
      have hled : a.leader (termOf e) ≠ none := by
        intro hnone
        have := hr m hsnap (Nat.lt_succ_self m)
        rw [h.vacant _ hnone, hlast] at this
        cases this
      have hle : T ≤ termOf e := by omega
      exact hagree.trans ((h.agree hle hled hc.1 hc.choosable).mono (Nat.le_refl _) hi).symm
  · -- everything is compacted
    rcases (h.voters v).compacted with hz | ⟨T, i, _, _, hi, hagree⟩
    · omega
    · have hall := hagree.mono (Nat.le_refl 0) (by omega : m + 1 ≤ (a.voter v).snap)
      have heT : (a.leaderLog T)[m]? = some e := (hall m (Nat.zero_le m) (by omega)).symm.trans hlast
      exact hall.trans (h.matching T m e heT)

/-- Such a log contains what is choosable and not after its end. -/
theorem contains (hend : ∀ T i, a.Committed T i → T ≤ (a.voter v).durable →
      EndsAfter termOf (a.voter v).log T i)
    (hown : a.Own T i) (hch : a.Choosable T i) (hafter : EndsAfter termOf (a.voter v).log T i) :
    AgreeOn (a.voter v).log (a.leaderLog T) 0 i := by
  have hpos : 0 < i := Nat.lt_of_le_of_lt (Nat.zero_le _) hown.1
  have hne : (a.voter v).log ≠ [] := by
    intro hnil
    rw [EndsAfter, hnil] at hafter
    have hlen : i ≤ 0 := (hafter.resolve_left (Nat.not_lt_zero _)).2
    omega
  have hproper := h.proper hend hne
  rcases hafter with hlt | ⟨heq, hi⟩
  · obtain ⟨m, e, hm, hlast, hterm⟩ := exists_last termOf hne
    rw [hterm, hm] at hproper
    rw [hterm] at hlt
    have hlastT : (a.leaderLog (termOf e))[m]? = some e :=
      (hproper m (Nat.zero_le m) (Nat.lt_succ_self m)).symm.trans hlast
    have hled : a.leader (termOf e) ≠ none := by
      intro hnone
      rw [h.vacant _ hnone] at hlastT
      cases hlastT
    have hag := h.complete T (termOf e) i hlt hled hown hch
    -- an end before `i` would put an entry of a later term into the log of `T`
    have him : i ≤ m + 1 := by
      by_contra hgt
      have hin : (a.leaderLog T)[m]? = some e :=
        (hag m (Nat.zero_le m) (by omega)).symm.trans hlastT
      have := h.term_le hin
      omega
    exact (hproper.mono (Nat.le_refl 0) him).trans hag
  · rw [← heq] at hproper
    exact hproper.mono (Nat.le_refl 0) hi

end Sound
end Consequences
end ReplicatedLog
end RaftLabs.Lib
