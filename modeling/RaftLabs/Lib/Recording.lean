import Mathlib.Data.List.Nodup
import Mathlib.Data.List.Perm.Basic
import RaftLabs.Lib.Linearizability
import RaftLabs.Lib.Transition

/-! Clients that note their calls.

A client of a service reads the clock, makes a call, waits for its answer, reads the clock again and
then puts the call into a log that all clients share. The clock never goes back; between any two of
these steps anything can happen. `recorded_reach` says what the log has to do with the history of
the service, and `Recorded.explained` that an order which explains the history, when all calls have
been noted, is an order of the log that its times allow. -/
namespace RaftLabs.Lib.Recording
variable {W A C Id In Out σ : Type}

/-- A service whose callers are named by their calls. -/
structure Service (W A C Id In Out : Type) extends System W A where
  history : W → List (HistoryEvent Id In Out)
  client : Id → C

structure Entry (Id In Out : Type) where
  id : Id
  input : In
  output : Out
  start : Int
  stop : Int

def Entry.operation (e : Entry Id In Out) : Operation Id In Out := ⟨e.id, e.input, e.output⟩

/-- Where a client is. -/
inductive Phase (Id In Out : Type) where
  | idle
  | started (start : Int)
  | calling (start : Int) (id : Id) (input : In)
  | answered (start : Int) (id : Id) (input : In) (output : Out)
  | stopped (entry : Entry Id In Out)

/-- `events` is the history with the times of its events. -/
structure State (W C Id In Out : Type) where
  world : W
  now : Int
  events : List (HistoryEvent Id In Out × Int)
  phases : C → Phase Id In Out
  log : List (Entry Id In Out)

inductive Action (A C : Type) where
  | elapse (d : Nat)
  | start (c : C)
  | act (a : A)
  | stop (c : C)
  | append (c : C)

section Recorder
variable [DecidableEq C]

def State.setPhase (s : State W C Id In Out) (c : C) (p : Phase Id In Out) : State W C Id In Out :=
  { s with phases := Function.update s.phases c p }

/-- The service has made a step, in which its clients see `e`. A call is made by a client that has
read the clock. -/
def State.observe (s : State W C Id In Out) (client : Id → C) (world : W)
    (e : HistoryEvent Id In Out) : Option (State W C Id In Out) :=
  let s' := { s with world := world, events := s.events ++ [(e, s.now)] }
  match e with
  | .invoke id input =>
    match s.phases (client id) with
    | .started start => some (s'.setPhase (client id) (.calling start id input))
    | _ => none
  | .respond id output =>
    match s.phases (client id) with
    | .calling start id' input => some (s'.setPhase (client id) (.answered start id' input output))
    | _ => some s'

def step (S : Service W A C Id In Out) (s : State W C Id In Out) :
    Action A C → Option (State W C Id In Out)
  | .elapse d => some { s with now := s.now + d }
  | .start c =>
    match s.phases c with
    | .idle => some (s.setPhase c (.started s.now))
    | _ => none
  | .act a =>
    (S.step s.world a).bind fun world =>
      match (S.history world).drop (S.history s.world).length with
      | [] => some { s with world := world }
      | [e] => s.observe S.client world e
      | _ => none
  | .stop c =>
    match s.phases c with
    | .answered start id input output =>
      some (s.setPhase c (.stopped ⟨id, input, output, start, s.now⟩))
    | _ => none
  | .append c =>
    match s.phases c with
    | .stopped entry => some { s.setPhase c .idle with log := s.log ++ [entry] }
    | _ => none

/-- The service with clients that note their calls. -/
def recorder (S : Service W A C Id In Out) : System (State W C Id In Out) (Action A C) where
  init := ⟨S.init, 0, [], fun _ => .idle, []⟩
  step := step S

end Recorder

/-- The steps of the service are of this class. -/
def allowed (ok : W → A → Prop) (s : State W C Id In Out) : Action A C → Prop
  | .act a => ok s.world a
  | _ => True

theorem allowed_anyStep (s : State W C Id In Out) (a : Action A C) :
    allowed System.anyStep s a := by
  cases a <;> trivial

instance (ok : W → A → Prop) [∀ w a, Decidable (ok w a)] (s : State W C Id In Out) :
    (a : Action A C) → Decidable (allowed ok s a)
  | .act a => inferInstanceAs (Decidable (ok s.world a))
  | .elapse _ | .start _ | .stop _ | .append _ => isTrue trivial

/-! ### What a service has to keep to -/

/-- The calls that were answered. -/
def answers (H : List (HistoryEvent Id In Out)) : List Id :=
  H.filterMap fun
    | .respond id _ => some id
    | .invoke _ _ => none

structure WellFormed (H : List (HistoryEvent Id In Out)) : Prop where
  single : ∀ id input input', .invoke id input ∈ H → .invoke id input' ∈ H → input = input'
  once : (answers H).Nodup
  responded : ∀ id out, .respond id out ∈ H → ∃ input, .invoke id input ∈ H

/-- In runs of this class the service shows one event at a time, and histories are well formed. -/
structure Observed (S : Service W A C Id In Out) (ok : W → A → Prop) : Prop where
  init : S.history S.init = []
  step : ∀ {w a w'}, S.step w a = some w' →
    S.history w' = S.history w ∨ ∃ e, S.history w' = S.history w ++ [e]
  wellFormed : ∀ {w}, S.toSystem.Reach ok w → WellFormed (S.history w)

theorem mem_answers {H : List (HistoryEvent Id In Out)} {id : Id} :
    id ∈ answers H ↔ ∃ out, .respond id out ∈ H := by
  rw [answers, List.mem_filterMap]
  constructor
  · rintro ⟨e, he, hid⟩
    cases e with
    | invoke _ _ => cases hid
    | respond id' out =>
      cases hid
      exact ⟨out, he⟩
  · rintro ⟨out, he⟩
    exact ⟨_, he, rfl⟩

/-- A call is answered once. -/
theorem WellFormed.fresh {H : List (HistoryEvent Id In Out)} {id : Id} {out out' : Out}
    (h : WellFormed (H ++ [.respond id out])) : .respond id out' ∉ H := by
  intro hmem
  have honce := h.once
  rw [answers, List.filterMap_append] at honce
  exact (List.nodup_append.mp honce).2.2 id (mem_answers.mpr ⟨out', hmem⟩) id (by simp) rfl

/-- The histories of traces whose events have been shown to be in order. -/
theorem wellFormed_of_trace {trace : List (HistoryEvent Id In Out × Nat)}
    (hsingle : ∀ id input input' t t', (.invoke id input, t) ∈ trace →
      (.invoke id input', t') ∈ trace → input = input')
    (honce : (responses trace).Nodup)
    (hresponded : ∀ id out t, (.respond id out, t) ∈ trace →
      ∃ input t₀, (.invoke id input, t₀) ∈ trace) : WellFormed (trace.map (·.1)) where
  single id input input' hmem hmem' := by
    obtain ⟨t, ht⟩ : ∃ t, (.invoke id input, t) ∈ trace := by simpa using hmem
    obtain ⟨t', ht'⟩ : ∃ t, (.invoke id input', t) ∈ trace := by simpa using hmem'
    exact hsingle id input input' t t' ht ht'
  once := by
    rw [answers, List.filterMap_map]
    exact honce
  responded id out hmem := by
    obtain ⟨t, ht⟩ : ∃ t, (.respond id out, t) ∈ trace := by simpa using hmem
    obtain ⟨input, t₀, ht₀⟩ := hresponded id out t ht
    exact ⟨input, List.mem_map_of_mem ht₀⟩

/-! ### What the clients know -/

/-- The times of the entry are around its call. -/
def Spans (events : List (HistoryEvent Id In Out × Int)) (e : Entry Id In Out) : Prop :=
  e.start ≤ e.stop ∧ ∃ t t', (.invoke e.id e.input, t) ∈ events ∧
    (.respond e.id e.output, t') ∈ events ∧ e.start ≤ t ∧ t' ≤ e.stop

def Unlogged (log : List (Entry Id In Out)) (id : Id) : Prop := ∀ e ∈ log, e.id ≠ id

/-- What client `c` knows in a phase. -/
def Knows (client : Id → C) (events : List (HistoryEvent Id In Out × Int))
    (log : List (Entry Id In Out)) (now : Int) (c : C) : Phase Id In Out → Prop
  | .idle => True
  | .started start => start ≤ now
  | .calling start id input => client id = c ∧ ∃ t, (.invoke id input, t) ∈ events ∧ start ≤ t
  | .answered start id input output => client id = c ∧ Unlogged log id ∧
    ∃ t t', (.invoke id input, t) ∈ events ∧ (.respond id output, t') ∈ events ∧ start ≤ t
  | .stopped e => client e.id = c ∧ Unlogged log e.id ∧ Spans events e

/-- The call that a client waits for. -/
def Phase.waiting : Phase Id In Out → Option (Id × In)
  | .calling _ id input => some (id, input)
  | _ => none

/-- What the clients and the log have to do with the history. -/
structure Recorded (S : Service W A C Id In Out) (s : State W C Id In Out) : Prop where
  history : s.events.map (·.1) = S.history s.world
  sorted : s.events.Pairwise fun a b => a.2 ≤ b.2
  past : ∀ e ∈ s.events, e.2 ≤ s.now
  knows : ∀ c, Knows S.client s.events s.log s.now c (s.phases c)
  invoked : ∀ id input, .invoke id input ∈ S.history s.world →
    (∃ out, .respond id out ∈ S.history s.world) ∨
      (s.phases (S.client id)).waiting = some (id, input)
  once : (s.log.map (·.id)).Nodup
  spans : ∀ e ∈ s.log, Spans s.events e

section Steps
variable {S : Service W A C Id In Out} {ok : W → A → Prop} {s s' : State W C Id In Out}
variable {client : Id → C} {events events' : List (HistoryEvent Id In Out × Int)}
variable {log log' : List (Entry Id In Out)} {now now' : Int} {c : C} {p : Phase Id In Out}

theorem Spans.mono (hevents : events ⊆ events') {e : Entry Id In Out} (h : Spans events e) :
    Spans events' e := by
  obtain ⟨hle, t, t', hinvoke, hrespond, hstart, hstop⟩ := h
  exact ⟨hle, t, t', hevents hinvoke, hevents hrespond, hstart, hstop⟩

/-- Time goes on, and other clients put calls into the log. -/
theorem Knows.mono (h : Knows client events log now c p) (hevents : events ⊆ events')
    (hnow : now ≤ now') (hlog : ∀ e ∈ log', e ∈ log ∨ client e.id ≠ c) :
    Knows client events' log' now' c p := by
  have hunlogged : ∀ id, client id = c → Unlogged log id → Unlogged log' id := by
    rintro id hid hnew e he rfl
    rcases hlog e he with hmem | hother
    · exact hnew e hmem rfl
    · exact hother hid
  cases p with
  | idle => trivial
  | started start => exact Int.le_trans h hnow
  | calling start id input =>
    obtain ⟨hclient, t, hinvoke, hstart⟩ := h
    exact ⟨hclient, t, hevents hinvoke, hstart⟩
  | answered start id input output =>
    obtain ⟨hclient, hnew, t, t', hinvoke, hrespond, hstart⟩ := h
    exact ⟨hclient, hunlogged id hclient hnew, t, t', hevents hinvoke, hevents hrespond, hstart⟩
  | stopped e =>
    obtain ⟨hclient, hnew, hspans⟩ := h
    exact ⟨hclient, hunlogged e.id hclient hnew, hspans.mono hevents⟩

theorem Recorded.mem_history (h : Recorded S s) {e : HistoryEvent Id In Out} :
    e ∈ S.history s.world ↔ ∃ t, (e, t) ∈ s.events := by
  simp [← h.history]

/-- A call is in the log after its answer. -/
theorem Recorded.unlogged (h : Recorded S s) {id : Id}
    (hnew : ∀ out, .respond id out ∉ S.history s.world) : Unlogged s.log id := by
  rintro e he rfl
  obtain ⟨-, -, t', -, hrespond, -, -⟩ := h.spans e he
  exact hnew e.output (h.mem_history.mpr ⟨t', hrespond⟩)

theorem Recorded.elapse (h : Recorded S s) (d : Nat) : Recorded S { s with now := s.now + d } where
  history := h.history
  sorted := h.sorted
  past e he := Int.le_trans (h.past e he) (Int.le_add_of_nonneg_right (Int.natCast_nonneg d))
  knows c := (h.knows c).mono (fun _ he => he) (Int.le_add_of_nonneg_right (Int.natCast_nonneg d))
    fun _ he => .inl he
  invoked := h.invoked
  once := h.once
  spans := h.spans

/-- A step of the service that its clients do not see. -/
theorem Recorded.silent (h : Recorded S s) {world : W}
    (hhistory : S.history world = S.history s.world) :
    Recorded S { s with world := world } where
  history := h.history.trans hhistory.symm
  sorted := h.sorted
  past := h.past
  knows := h.knows
  invoked := by
    rw [hhistory]
    exact h.invoked
  once := h.once
  spans := h.spans

section Phases
variable [DecidableEq C]

@[simp] theorem phases_setPhase (s : State W C Id In Out) (c c' : C) (p : Phase Id In Out) :
    (s.setPhase c p).phases c' = if c' = c then p else s.phases c' := by
  simp [State.setPhase, Function.update_apply]

/-- A client that is not in a call moves on. -/
theorem Recorded.setPhase (h : Recorded S s)
    (hknows : Knows S.client s.events s.log s.now c p)
    (hwaiting : p.waiting = (s.phases c).waiting) :
    Recorded S (s.setPhase c p) where
  history := h.history
  sorted := h.sorted
  past := h.past
  knows c' := by
    rw [phases_setPhase]
    split
    · rename_i hc
      rw [hc]
      exact hknows
    · exact h.knows c'
  invoked id input hinvoke := by
    rw [phases_setPhase]
    refine (h.invoked id input hinvoke).imp_right fun hold => ?_
    split
    · rename_i hc
      rwa [hwaiting, ← hc]
    · exact hold
  once := h.once
  spans := h.spans

/-- A client puts its call into the log. -/
theorem Recorded.append (h : Recorded S s) {e : Entry Id In Out}
    (hphase : s.phases c = .stopped e) :
    Recorded S { s.setPhase c .idle with log := s.log ++ [e] } := by
  have hknows := h.knows c
  rw [hphase] at hknows
  obtain ⟨hclient, hnew, hspans⟩ := hknows
  constructor
  case history => exact h.history
  case sorted => exact h.sorted
  case past => exact h.past
  case knows =>
    intro c'
    show Knows S.client s.events (s.log ++ [e]) s.now c' ((s.setPhase c .idle).phases c')
    rw [phases_setPhase]
    split
    · trivial
    · rename_i hc
      refine (h.knows c').mono (fun _ he => he) (Int.le_refl _) fun e' he' => ?_
      rcases List.mem_append.mp he' with hmem | hmem
      · exact .inl hmem
      · rw [List.mem_singleton.mp hmem, hclient]
        exact .inr (Ne.symm hc)
  case invoked =>
    intro id input hinvoke
    show _ ∨ ((s.setPhase c .idle).phases (S.client id)).waiting = _
    rw [phases_setPhase]
    refine (h.invoked id input hinvoke).imp_right fun hold => ?_
    split
    · rename_i hc
      rw [hc, hphase] at hold
      cases hold
    · exact hold
  case once =>
    rw [List.map_append, List.nodup_append]
    refine ⟨h.once, List.nodup_singleton _, ?_⟩
    intro id hid id' hid' heq
    obtain ⟨e', he', rfl⟩ := List.mem_map.mp hid
    rw [List.map_singleton, List.mem_singleton] at hid'
    exact hnew e' he' (heq.trans hid')
  case spans =>
    intro e' he'
    rcases List.mem_append.mp he' with hmem | hmem
    · exact h.spans e' hmem
    · rw [List.mem_singleton.mp hmem]
      exact hspans

/-- A client sees an event of its call and moves on. -/
theorem Recorded.observe (h : Recorded S s) {world : W} {e : HistoryEvent Id In Out}
    (hhistory : S.history world = S.history s.world ++ [e])
    (hknows : Knows S.client (s.events ++ [(e, s.now)]) s.log s.now c p)
    (hinvoke : ∀ id input, e = .invoke id input → S.client id = c ∧ p.waiting = some (id, input))
    (hwaiting : ∀ id input, (s.phases c).waiting = some (id, input) →
      ∃ out, e = .respond id out) :
    Recorded S ({ s with world := world, events := s.events ++ [(e, s.now)] }.setPhase c p) := by
  have hsub : s.events ⊆ s.events ++ [(e, s.now)] := List.subset_append_left _ _
  constructor
  case history =>
    show (s.events ++ [_]).map _ = S.history world
    rw [List.map_append, h.history, hhistory]
    rfl
  case sorted =>
    refine List.pairwise_append.mpr ⟨h.sorted, List.pairwise_singleton _ _, fun a ha b hb => ?_⟩
    rw [List.mem_singleton.mp hb]
    exact h.past a ha
  case past =>
    intro a ha
    rcases List.mem_append.mp ha with hmem | hmem
    · exact h.past a hmem
    · rw [List.mem_singleton.mp hmem]
      exact Int.le_refl _
  case knows =>
    intro c'
    rw [phases_setPhase]
    split
    · rename_i hc
      rw [hc]
      exact hknows
    · exact (h.knows c').mono hsub (Int.le_refl _) fun _ he => .inl he
  case invoked =>
    intro id input hmem
    show (∃ out, .respond id out ∈ S.history world) ∨ _
    have hmem : .invoke id input ∈ S.history world := hmem
    rw [phases_setPhase]
    rw [hhistory] at hmem ⊢
    rcases List.mem_append.mp hmem with hold | hnew
    · rcases h.invoked id input hold with ⟨out, hout⟩ | hphase
      · exact .inl ⟨out, List.mem_append_left _ hout⟩
      · split
        · rename_i hc
          rw [hc] at hphase
          obtain ⟨out, rfl⟩ := hwaiting id input hphase
          exact .inl ⟨out, List.mem_append_right _ (List.mem_singleton_self _)⟩
        · exact .inr hphase
    · obtain ⟨hc, hphase⟩ := hinvoke id input (List.mem_singleton.mp hnew).symm
      rw [if_pos hc]
      exact .inr hphase
  case once => exact h.once
  case spans => exact fun e he => (h.spans e he).mono hsub

/-- A client makes its call. -/
theorem Recorded.invoke (h : Recorded S s) {world : W} {id : Id} {input : In}
    (hhistory : S.history world = S.history s.world ++ [.invoke id input])
    (hstep : s.observe S.client world (.invoke id input) = some s') : Recorded S s' := by
  have hknows := h.knows (S.client id)
  cases hphase : s.phases (S.client id) with
  | started start =>
    simp only [State.observe, hphase, Option.some.injEq] at hstep
    rw [hphase] at hknows
    subst hstep
    refine h.observe hhistory ?_ ?_ ?_
    · exact ⟨rfl, s.now, List.mem_append_right _ (List.mem_singleton_self _), hknows⟩
    · rintro id' input' ⟨⟩
      exact ⟨rfl, rfl⟩
    · intro id' input' hwaiting
      rw [hphase] at hwaiting
      cases hwaiting
  | _ => simp [State.observe, hphase] at hstep

/-- A client gets its answer. -/
theorem Recorded.respond (h : Recorded S s) {world : W} {id : Id} {output : Out}
    (hhistory : S.history world = S.history s.world ++ [.respond id output])
    (hwf : WellFormed (S.history world))
    (hstep : s.observe S.client world (.respond id output) = some s') : Recorded S s' := by
  rw [hhistory] at hwf
  -- the call was made and not answered before, so that its client waits for it
  obtain ⟨input, hmem⟩ := hwf.responded id output (List.mem_append_right _ (List.mem_singleton_self _))
  have hinvoke : .invoke id input ∈ S.history s.world := by
    rcases List.mem_append.mp hmem with hold | hnew
    · exact hold
    · cases List.mem_singleton.mp hnew
  rcases h.invoked id input hinvoke with ⟨out, hout⟩ | hwaiting
  · exact absurd hout hwf.fresh
  have hknows := h.knows (S.client id)
  cases hphase : s.phases (S.client id) with
  | calling start id' input' =>
    simp only [hphase, Phase.waiting, Option.some.injEq, Prod.mk.injEq] at hwaiting
    obtain ⟨rfl, rfl⟩ := hwaiting
    simp only [State.observe, hphase, Option.some.injEq] at hstep
    rw [hphase] at hknows
    obtain ⟨-, t, ht, hstart⟩ := hknows
    subst hstep
    refine h.observe hhistory ?_ ?_ ?_
    · exact ⟨rfl, h.unlogged fun out => hwf.fresh, t, s.now, List.mem_append_left _ ht,
        List.mem_append_right _ (List.mem_singleton_self _), hstart⟩
    · rintro id' input'' ⟨⟩
    · intro id'' input'' hwaiting
      simp only [hphase, Phase.waiting, Option.some.injEq, Prod.mk.injEq] at hwaiting
      rw [← hwaiting.1]
      exact ⟨output, rfl⟩
  | _ => simp [hphase, Phase.waiting] at hwaiting

theorem world_observe {world : W} {e : HistoryEvent Id In Out}
    (h : s.observe client world e = some s') : s'.world = world := by
  cases e with
  | invoke id input =>
    simp only [State.observe] at h
    split at h
    · cases h
      rfl
    · cases h
  | respond id output =>
    simp only [State.observe] at h
    split at h <;> cases h <;> rfl

theorem Recorded.act (hS : Observed S ok) (hreach : S.toSystem.Reach ok s.world) (h : Recorded S s)
    {a : A} (hok : ok s.world a) (hstep : step S s (.act a) = some s') :
    S.toSystem.Reach ok s'.world ∧ Recorded S s' := by
  simp only [step, Option.bind_eq_some_iff] at hstep
  obtain ⟨world, hworld, hobserve⟩ := hstep
  have hreach' : S.toSystem.Reach ok world := .step hreach hok hworld
  rcases hS.step hworld with hsame | ⟨e, he⟩
  · rw [hsame, List.drop_length] at hobserve
    cases hobserve
    exact ⟨hreach', h.silent hsame⟩
  · rw [he, List.drop_left] at hobserve
    have hobserve : s.observe S.client world e = some s' := hobserve
    refine ⟨(world_observe hobserve).symm ▸ hreach', ?_⟩
    cases e with
    | invoke id input => exact h.invoke he hobserve
    | respond id output => exact h.respond he (hS.wellFormed hreach') hobserve

theorem Recorded.step (hS : Observed S ok) (hreach : S.toSystem.Reach ok s.world)
    (h : Recorded S s) {a : Action A C} (hok : allowed ok s a)
    (hstep : Recording.step S s a = some s') : S.toSystem.Reach ok s'.world ∧ Recorded S s' := by
  cases a with
  | elapse d =>
    cases hstep
    exact ⟨hreach, h.elapse d⟩
  | start c =>
    cases hphase : s.phases c with
    | idle =>
      simp only [Recording.step, hphase, Option.some.injEq] at hstep
      subst hstep
      refine ⟨hreach, h.setPhase (Int.le_refl s.now) ?_⟩
      rw [hphase]
      rfl
    | _ => simp [Recording.step, hphase] at hstep
  | act a => exact h.act hS hreach hok hstep
  | stop c =>
    cases hphase : s.phases c with
    | answered start id input output =>
      simp only [Recording.step, hphase, Option.some.injEq] at hstep
      subst hstep
      have hknows := h.knows c
      rw [hphase] at hknows
      obtain ⟨hclient, hnew, t, t', hinvoke, hrespond, hstart⟩ := hknows
      refine ⟨hreach, h.setPhase ?_ ?_⟩
      · exact ⟨hclient, hnew, Int.le_trans hstart (h.past _ hinvoke), t, t', hinvoke, hrespond,
          hstart, h.past _ hrespond⟩
      · rw [hphase]
        rfl
    | _ => simp [Recording.step, hphase] at hstep
  | append c =>
    cases hphase : s.phases c with
    | stopped e =>
      simp only [Recording.step, hphase, Option.some.injEq] at hstep
      subst hstep
      exact ⟨hreach, h.append hphase⟩
    | _ => simp [Recording.step, hphase] at hstep

theorem recorded_init (hS : Observed S ok) : Recorded S (recorder S).init := by
  have hempty : S.history (recorder S).init.world = [] := hS.init
  constructor
  case history => exact hempty.symm
  case sorted => exact .nil
  case past => exact fun e he => absurd he List.not_mem_nil
  case knows => exact fun c => trivial
  case invoked =>
    intro id input hmem
    rw [hempty] at hmem
    cases hmem
  case once => exact List.nodup_nil
  case spans => exact fun e he => absurd he List.not_mem_nil

/-- **What holds of the log in every run.** -/
theorem recorded_reach (hS : Observed S ok) (hs : (recorder S).Reach (allowed ok) s) :
    S.toSystem.Reach ok s.world ∧ Recorded S s := by
  refine hs.invariant (P := fun s => S.toSystem.Reach ok s.world ∧ Recorded S s)
    ⟨.init, recorded_init hS⟩ ?_
  rintro s a s' - ⟨hreach, h⟩ hok hstep
  exact h.step hS hreach hok hstep

end Phases

/-! ### Orders of the log -/

variable {O : Object σ In Out} {order : List (Operation Id In Out)}

/-- Every call that was made is in the log. -/
def AllLogged (S : Service W A C Id In Out) (s : State W C Id In Out) : Prop :=
  ∀ id input, .invoke id input ∈ S.history s.world → ∃ e ∈ s.log, e.id = id

theorem allLogged_of_ids (h : (S.history s.world).map (·.id) ⊆ s.log.map (·.id)) :
    AllLogged S s := fun _ _ hmem => List.mem_map.mp (h (List.mem_map_of_mem hmem))

theorem precedes_of_times (hsorted : events.Pairwise fun a b => a.2 ≤ b.2) {a b : Id} {out : Out}
    {input : In} {t t' : Int} (ha : (.respond a out, t) ∈ events)
    (hb : (.invoke b input, t') ∈ events) (hlt : t < t') : Precedes (events.map (·.1)) a b := by
  obtain ⟨i, hi, hgeti⟩ := List.mem_iff_getElem.mp ha
  obtain ⟨j, hj, hgetj⟩ := List.mem_iff_getElem.mp hb
  refine ⟨i, j, out, input, ?_, ?_, ?_⟩
  · rcases Nat.lt_or_ge i j with hij | hji
    · exact hij
    -- a later event has no earlier time
    · rcases Nat.eq_or_lt_of_le hji with rfl | hji
      · rw [hgeti] at hgetj
        cases hgetj
      · have hle := List.pairwise_iff_getElem.mp hsorted j i hj hi hji
        rw [hgeti, hgetj] at hle
        exact absurd hlt (Int.not_lt.mpr hle)
  · rw [List.getElem?_map, List.getElem?_eq_getElem hi, hgeti]
    rfl
  · rw [List.getElem?_map, List.getElem?_eq_getElem hj, hgetj]
    rfl

/-- The log has the operation that the order has. -/
theorem Recorded.operation_eq (h : Recorded S s) (hwf : WellFormed (S.history s.world))
    (hlin : Linearizes O (S.history s.world) order) {e : Entry Id In Out} (he : e ∈ s.log)
    {op : Operation Id In Out} (hop : op ∈ order) (hid : op.id = e.id) : e.operation = op := by
  obtain ⟨-, t, t', hinvoke, hrespond, -, -⟩ := h.spans e he
  obtain ⟨op', hop', hid', hout⟩ :=
    hlin.complete e.id e.output (h.mem_history.mpr ⟨t', hrespond⟩)
  obtain rfl : op' = op := List.inj_on_of_nodup_map hlin.once hop' hop (hid'.trans hid.symm)
  have hinput : op'.input = e.input :=
    hwf.single e.id _ _ (hid ▸ hlin.invoked op' hop) (h.mem_history.mpr ⟨t, hinvoke⟩)
  rw [Entry.operation, ← hid, ← hinput, ← hout]

theorem Recorded.perm (h : Recorded S s) (hlogged : AllLogged S s)
    (hwf : WellFormed (S.history s.world)) (hlin : Linearizes O (S.history s.world) order) :
    order.Perm (s.log.map Entry.operation) := by
  have honce : ((s.log.map Entry.operation).map (·.id)).Nodup := by
    rw [List.map_map]
    exact h.once
  refine (List.perm_ext_iff_of_nodup hlin.once.of_map honce.of_map).mpr fun op => ?_
  constructor
  · intro hop
    obtain ⟨e, he, hid⟩ := hlogged op.id op.input (hlin.invoked op hop)
    exact List.mem_map.mpr ⟨e, he, h.operation_eq hwf hlin he hop hid.symm⟩
  · intro hop
    obtain ⟨e, he, rfl⟩ := List.mem_map.mp hop
    obtain ⟨-, -, t', -, hrespond, -, -⟩ := h.spans e he
    obtain ⟨op, hop, hid, -⟩ := hlin.complete e.id e.output (h.mem_history.mpr ⟨t', hrespond⟩)
    rw [h.operation_eq hwf hlin he hop hid]
    exact hop

/-- **An order that explains the history is an order of the log that its times allow.** -/
theorem Recorded.explained (h : Recorded S s) (hlogged : AllLogged S s)
    (hwf : WellFormed (S.history s.world)) (hlin : Linearizes O (S.history s.world) order) :
    ∃ entries : List (Entry Id In Out), entries.Perm s.log ∧ entries.map Entry.operation = order ∧
      entries.Pairwise fun a b => ¬ b.stop < a.start := by
  have hcomp : Relation.Comp (· = List.map Entry.operation ·) List.Perm order s.log := by
    rw [List.eq_map_comp_perm]
    exact h.perm hlogged hwf hlin
  obtain ⟨entries, rfl, hperm⟩ := hcomp
  refine ⟨entries, hperm, rfl, ?_⟩
  refine (List.pairwise_map.mp hlin.ordered).imp_of_mem ?_
  intro a b ha hb hnot hlt
  obtain ⟨-, t, -, hinvoke, -, hstart, -⟩ := h.spans a (hperm.subset ha)
  obtain ⟨-, -, t', -, hrespond, -, hstop⟩ := h.spans b (hperm.subset hb)
  refine hnot ?_
  rw [← h.history]
  exact precedes_of_times h.sorted hrespond hinvoke
    (Int.lt_of_le_of_lt hstop (Int.lt_of_lt_of_le hlt hstart))

end Steps
end RaftLabs.Lib.Recording
