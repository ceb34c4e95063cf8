import RaftLabs.Lib.Sessions
import RaftLabs.ShardCtrler.Determinism
import RaftLabs.ShardCtrler.Service

/-! What `Query` returns to a clerk.

A handler that has waited for its entry reads the configurations of a prefix of the log that has
the entry, which is a point between the call and the return. At the moment of its reply the log may
be longer: a leader that was replaced in the meantime does not have a configuration that others
have created, and answers with the last one it has. A handler that finds its request completed when
it is entered answers without reading anything: a `Query` whose first reply was lost returns the
zero configuration. -/
namespace RaftLabs.ShardCtrler
open Lib

/-! ### Servers follow the log -/

/-- The state after a log. -/
def agreed (log : List Op) : Option Server := replay (fun _ => sortedOrders) log

theorem applyCommand_orders (srv : Server) (orders orders' : Orders) (op : Op) (i : Nat) :
    srv.applyCommand orders op i = srv.applyCommand orders' op i := by
  simp only [Server.applyCommand, apply_orders srv.sc orders orders']

theorem commitedId_applyCommand {srv srv' : Server} {orders : Orders} {op : Op} {i : Nat}
    (h : srv.applyCommand orders op i = some srv') : srv'.commitedId = max srv.commitedId i := by
  unfold Server.applyCommand at h
  split at h
  · obtain ⟨sc, -, rfl⟩ := Option.map_eq_some_iff.mp h
    rfl
  · cases h
    rfl

/-- The server has applied the beginning of the log. -/
structure Follows (log : List Op) (srv : Server) : Prop where
  le : srv.commitedId ≤ log.length
  state : agreed (log.take srv.commitedId) = some srv

namespace Follows
variable {log : List Op} {srv srv' : Server}

theorem start (log : List Op) : Follows log {} := ⟨Nat.zero_le _, rfl⟩

theorem append (h : Follows log srv) (l : List Op) : Follows (log ++ l) srv := by
  refine ⟨h.le.trans (by simp), ?_⟩
  rw [List.take_append_of_le_length h.le]
  exact h.state

theorem apply (h : Follows log srv) {op : Op} (hop : log[srv.commitedId]? = some op)
    {orders : Orders} (hstep : srv.applyCommand orders op (srv.commitedId + 1) = some srv') :
    Follows log srv' := by
  have hlt := (List.getElem?_eq_some_iff.mp hop).1
  have hid : srv'.commitedId = srv.commitedId + 1 := by
    rw [commitedId_applyCommand hstep]
    omega
  refine ⟨by omega, ?_⟩
  rw [hid, List.take_add_one, hop, Option.toList_some, agreed, replay_concat]
  rw [show replay _ (log.take srv.commitedId) = some srv from h.state, Option.bind_some,
    List.length_take_of_le h.le, ← applyCommand_orders srv orders, hstep]

end Follows

/-- Configurations are only added. -/
theorem configs_prefix_replay {orders : Nat → Orders} {log l : List Op} {srv srv' : Server}
    (h : replay orders log = some srv) (h' : replay orders (log ++ l) = some srv') :
    srv.sc.configs <+: srv'.sc.configs := by
  induction l using List.reverseRecOn generalizing srv' with
  | nil =>
    rw [List.append_nil, h] at h'
    cases h'
    exact List.prefix_rfl
  | append_singleton l op ih =>
    rw [← List.append_assoc, replay_concat] at h'
    obtain ⟨srv₁, h₁, hstep⟩ := Option.bind_eq_some_iff.mp h'
    refine (ih h₁).trans ?_
    unfold Server.applyCommand at hstep
    split at hstep
    · obtain ⟨sc, hsc, rfl⟩ := Option.map_eq_some_iff.mp hstep
      rcases apply_cases hsc with rfl | ⟨cfg, rfl, -⟩
      · exact List.prefix_rfl
      · exact List.prefix_append _ _
    · cases hstep
      exact List.prefix_rfl

/-! ### Requests that are executed -/

theorem mem_fresh {log : List Op} {op : Op} :
    op ∈ fresh log ↔ ∃ i, log[i]? = some op ∧ Fresh (log.take i) op := by
  simp only [fresh, List.mem_filterMap, Prod.exists, List.mk_mem_zipIdx_iff_getElem?,
    Option.ite_none_right_eq_some, Option.some.injEq]
  constructor
  · rintro ⟨_, i, hi, hfresh, rfl⟩
    exact ⟨i, hi, hfresh⟩
  · rintro ⟨i, hi, hfresh⟩
    exact ⟨op, i, hi, hfresh, rfl⟩

theorem mem_fresh_take {log : List Op} {op : Op} {q : Nat} :
    op ∈ fresh (log.take q) ↔ ∃ i < q, log[i]? = some op ∧ Fresh (log.take i) op := by
  rw [mem_fresh]
  constructor
  · rintro ⟨i, hi, hfresh⟩
    have hlt : i < q := by
      have := (List.getElem?_eq_some_iff.mp hi).1
      rw [List.length_take] at this
      omega
    rw [List.getElem?_take_of_lt hlt] at hi
    rw [List.take_take, Nat.min_eq_left hlt.le] at hfresh
    exact ⟨i, hlt, hi, hfresh⟩
  · rintro ⟨i, hlt, hi, hfresh⟩
    refine ⟨i, (List.getElem?_take_of_lt hlt).trans hi, ?_⟩
    rwa [List.take_take, Nat.min_eq_left hlt.le]

/-- The last request of a client is executed. -/
theorem mem_fresh_of_last {log : List Op} {op : Op} (hmem : op ∈ log) (hpos : 0 < op.reqNo)
    (hlast : ∀ op' ∈ log, op'.clientId = op.clientId →
      op'.reqNo ≤ op.reqNo ∧ (op'.reqNo = op.reqNo → op' = op)) : op ∈ fresh log := by
  induction log using List.reverseRecOn with
  | nil => cases hmem
  | append_singleton log x ih =>
    have hbefore := fun op' hop' => hlast op' (List.mem_append_left _ hop')
    rw [fresh_concat, List.mem_append]
    by_cases hin : op ∈ log
    · exact .inl (ih hin hbefore)
    · have hx : op = x := by simpa [hin] using hmem
      subst hx
      have hfresh : Fresh log op := ⟨hpos, fun op' hop' hc => by
        obtain ⟨hle, heq⟩ := hbefore op' hop' hc
        exact lt_of_le_of_ne hle fun h => hin (heq h ▸ hop')⟩
      simp [hfresh]

/-! ### Answers -/

/-- The log creates configuration `num`. -/
def Created (log : List Op) (num : Int) : Prop :=
  ∃ p ≤ log.length, ∃ srv ∈ agreed (log.take p), num < srv.sc.configs.length

instance (log : List Op) (num : Int) : Decidable (Created log num) :=
  inferInstanceAs (Decidable (∃ p, p ≤ log.length ∧ _))

def Entered.reply? : Entered → Option Reply
  | .reply r => some r
  | .start _ => none

def Woken.reply? : Woken → Option Reply
  | .reply r => some r
  | .wait | .panic => none

/-- The answers that handlers give, each with its call and the length of the log at that moment. -/
def answered (w : World) (call : Call) (reply : Option Reply) : List (CallId × Config × Nat) :=
  (reply.bind fun reply =>
    if reply.wrongLeader then none else some (call.id, reply.config, w.log.length)).toList

/-- What a step answers. -/
def replies (w : World) : Action → List (CallId × Config × Nat)
  | .enter k isLeader _ => w.calls[k]?.toList.flatMap fun call =>
    answered w call ((w.servers call.server).enter isLeader call.op).reply?
  | .wake k leads => w.calls[k]?.toList.flatMap fun call =>
    answered w call ((w.servers call.server).wake leads call.op).reply?
  | _ => []

/-- `config` is an answer to a call at the prefix `q` of the log, given when the log had `r` entries:
the call was executed in the prefix, and a `Query` returns what its configurations give, which have
the one it asks for if the log had it. -/
structure AnsweredAt (log : List Op) (q r : Nat) (id : CallId) (args : Args) (config : Config) :
    Prop where
  le : q ≤ r
  within : r ≤ log.length
  executed : .ofCall id args ∈ fresh (log.take q)
  value : ∀ num, args = .query num →
    ∃ srv, agreed (log.take q) = some srv ∧ Server.queryConfig srv.sc num = some config ∧
      (Created (log.take r) num → num < srv.sc.configs.length)

/-- `seen` are the answers so far. -/
def Answers (seen : List (CallId × Config × Nat)) (log : List Op) (id : CallId) (args : Args)
    (config : Config) : Prop :=
  ∃ q r, (id, config, r) ∈ seen ∧ AnsweredAt log q r id args config

theorem Answers.append {seen : List (CallId × Config × Nat)} {log : List Op} {id : CallId}
    {args : Args} {config : Config} (h : Answers seen log id args config) (l : List Op) :
    Answers seen (log ++ l) id args config := by
  obtain ⟨q, r, hseen, hle, hwithin, hexec, hvalue⟩ := h
  refine ⟨q, r, hseen, hle, hwithin.trans (by simp), ?_, ?_⟩
  · rwa [List.take_append_of_le_length (hle.trans hwithin)]
  · rwa [List.take_append_of_le_length (hle.trans hwithin),
      List.take_append_of_le_length hwithin]

theorem Answers.mono {seen seen' : List (CallId × Config × Nat)} {log : List Op} {id : CallId}
    {args : Args} {config : Config} (h : Answers seen log id args config) (hsub : seen ⊆ seen') :
    Answers seen' log id args config := by
  obtain ⟨q, r, hseen, hat⟩ := h
  exact ⟨q, r, hsub hseen, hat⟩

theorem queryConfig_eq {sc : ShardCtrler} {num : Int} {config : Config}
    (h : Server.queryConfig sc num = some config) :
    (0 ≤ num ∧ num < sc.configs.length → sc.configs[num.toNat]? = some config) ∧
      (num = -1 ∨ sc.configs.length ≤ num → sc.configs.getLast? = some config) := by
  unfold Server.queryConfig at h
  split at h
  · rename_i hlast
    exact ⟨fun hnum => by omega, fun _ => h⟩
  · rename_i hnum
    split at h
    · exact ⟨fun _ => h, fun hlast => absurd hlast hnum⟩
    · cases h

/-! ### What the callers see -/

def Clerk.session (ck : Clerk) : Session Args where
  number := ck.reqNo
  call := ck.call

/-- The command was asked for when the log had `t` entries. -/
def Asked (w : World) (op : Op) (t : Nat) : Prop :=
  ∃ id args, op = .ofCall id args ∧ (.invoke id args, t) ∈ w.trace

/-- A call was asked for; a reply that the clerk takes is an answer to it, or the clerk has gone on
to another call. -/
def CallSound (seen : List (CallId × Config × Nat)) (w : World) (call : Call) : Prop :=
  (∃ t, (.invoke call.id call.args, t) ∈ w.trace) ∧
    ∀ reply, call.progress = .replied reply → reply.wrongLeader = false →
      Answers seen w.log call.id call.args reply.config ∨
        call.id.2 < (w.clerks call.id.1).reqNo

/-- The clerk waits for an attempt of its own call. -/
def Waits (w : World) (c : Nat) (ck : Clerk) : Prop :=
  ∀ k, ck.pending = some k → ∃ call, w.calls[k]? = some call ∧ ck.call = some call.args ∧
    call.id = (c, ck.reqNo)

structure Sound (seen : List (CallId × Config × Nat)) (w : World) : Prop where
  sessions : Sessions (fun t => Answers seen (w.log.take t)) w.trace (Clerk.session ∘ w.clerks)
    w.seq w.log.length
  follows : ∀ s, Follows w.log (w.servers s)
  proposed : ∀ op ∈ w.proposals, ∃ t, Asked w op t
  logged : ∀ (i : Nat) op, w.log[i]? = some op → ∃ t ≤ i, Asked w op t
  called : ∀ call ∈ w.calls, CallSound seen w call
  waits : ∀ c, Waits w c (w.clerks c)

theorem Sound.initial : Sound [] .initial where
  sessions := Sessions.initial
  follows _ := .start []
  proposed _ h := nomatch h
  logged _ _ h := nomatch h
  called _ h := nomatch h
  waits _ _ h := nomatch h

/-- What only grows. -/
structure Later (w w' : World) : Prop where
  log : ∃ l, w'.log = w.log ++ l
  trace : ∀ e ∈ w.trace, e ∈ w'.trace
  reqNo : ∀ c, (w.clerks c).reqNo ≤ (w'.clerks c).reqNo

theorem Later.asked {w w' : World} (h : Later w w') {op : Op} {t : Nat} (ha : Asked w op t) :
    Asked w' op t := by
  obtain ⟨id, args, hop, hinv⟩ := ha
  exact ⟨id, args, hop, h.trace _ hinv⟩

theorem Later.callSound {seen : List (CallId × Config × Nat)} {w w' : World} (h : Later w w')
    {call : Call} (hs : CallSound seen w call) : CallSound seen w' call := by
  refine ⟨hs.1.imp fun t ht => h.trace _ ht, fun reply hr hok => ?_⟩
  obtain ⟨l, hl⟩ := h.log
  rcases hs.2 reply hr hok with hans | hgone
  · rw [hl]
    exact .inl (hans.append l)
  · exact .inr (hgone.trans_le (h.reqNo _))

/-- The attempts of a clerk do not show in its session. -/
theorem session_pending (clerks : Nat → Clerk) (c : Nat) (pending : Option Nat) :
    Clerk.session ∘ Function.update clerks c { clerks c with pending := pending } =
      Clerk.session ∘ clerks := by
  rw [Function.comp_update]
  exact Function.update_eq_self c _

theorem ofCall_inj {id id' : CallId} {args args' : Args}
    (h : Op.ofCall id args = Op.ofCall id' args') : id = id' ∧ args = args' := by
  simp only [Op.ofCall, Op.mk.injEq, Int.natCast_inj] at h
  exact ⟨Prod.ext h.1 h.2.1, h.2.2⟩

namespace Sound
variable {seen : List (CallId × Config × Nat)} {w : World} {c k : Nat} {call : Call}

/-- More answers do not hurt. -/
theorem mono (h : Sound seen w) {seen' : List (CallId × Config × Nat)} (hsub : seen ⊆ seen') :
    Sound seen' w where
  sessions := h.sessions.later (Nat.le_refl _) fun _ _ _ _ _ ha => ha.mono hsub
  follows := h.follows
  proposed := h.proposed
  logged := h.logged
  called call hcall := by
    obtain ⟨hasked, hreply⟩ := h.called call hcall
    exact ⟨hasked, fun reply hr hok => (hreply reply hr hok).imp_left fun ha => ha.mono hsub⟩
  waits := h.waits

/-- A server that has completed the number of an outstanding call has executed the call. -/
theorem executed (h : Sound seen w) {srv : Server} (hsrv : Follows w.log srv) {id : CallId} {args : Args}
    {t : Nat} (hinv : (.invoke id args, t) ∈ w.trace) (hdone : (id.2 : Int) ≤ srv.completed id.1) :
    .ofCall id args ∈ fresh (w.log.take srv.commitedId) ∨ id.2 < (w.clerks id.1).reqNo := by
  obtain ⟨hpos, hle⟩ := h.sessions.invoked _ _ _ hinv
  rcases Nat.lt_or_ge id.2 (w.clerks id.1).reqNo with hlt | hge
  · exact .inr hlt
  -- the entries of the clerk have numbers up to that of the call, which is the only one with it
  have hentry : ∀ op ∈ w.log.take srv.commitedId, op.clientId = id.1 →
      op.reqNo ≤ id.2 ∧ (op.reqNo = id.2 → op = .ofCall id args) := by
    intro op hop hc
    obtain ⟨i, hi⟩ := List.mem_iff_getElem?.mp (List.mem_of_mem_take hop)
    obtain ⟨t', -, ⟨c', r⟩, args', rfl, hinv'⟩ := h.logged i op hi
    have hle' := (h.sessions.invoked _ _ _ hinv').2
    obtain rfl : c' = id.1 := Int.natCast_inj.mp hc
    refine ⟨Int.ofNat_le.mpr (hle'.trans hge), fun hr => ?_⟩
    obtain rfl : r = id.2 := Int.natCast_inj.mp hr
    rw [(h.sessions.single _ _ _ _ _ hinv hinv').1]
  have hpos' : (0 : Int) < id.2 := Int.ofNat_lt.mpr hpos
  obtain ⟨op, hop, hc, hr⟩ :=
    (replays_replay hsrv.state).reached id.1 (lt_of_lt_of_le hpos' hdone)
  obtain ⟨hmax, huniq⟩ := hentry op hop hc
  cases huniq (le_antisymm hmax (hr ▸ hdone))
  exact .inl (mem_fresh_of_last hop hpos' hentry)

theorem advance (h : Sound seen w) (hcall : w.calls[k]? = some call) {progress : Progress}
    (hsound : CallSound seen w { call with progress := progress }) :
    Sound seen (w.advance k call progress) where
  sessions := h.sessions
  follows := h.follows
  proposed := h.proposed
  logged := h.logged
  called call' hmem := by
    rcases List.mem_or_eq_of_mem_set hmem with hold | rfl
    · exact h.called call' hold
    · exact hsound
  waits c k' hk := by
    obtain ⟨call', hcall', hargs, hid⟩ := h.waits c k' hk
    by_cases hkk : k = k'
    · subst hkk
      cases hcall.symm.trans hcall'
      refine ⟨{ call with progress := progress }, ?_, hargs, hid⟩
      exact List.getElem?_set_self (List.getElem?_eq_some_iff.mp hcall).1
    · exact ⟨call', (List.getElem?_set_ne hkk).trans hcall', hargs, hid⟩

theorem reply (h : Sound seen w) (hcall : w.calls[k]? = some call) {reply : Reply}
    (hreply : reply.wrongLeader = false →
      Answers seen w.log call.id call.args reply.config ∨ call.id.2 < (w.clerks call.id.1).reqNo) :
    Sound seen (w.advance k call (.replied reply)) := by
  refine h.advance hcall ⟨(h.called call (List.mem_of_getElem? hcall)).1, fun _ heq => ?_⟩
  cases heq
  exact hreply

theorem propose (h : Sound seen w) {op : Op} (hop : ∃ t, Asked w op t) :
    Sound seen { w with proposals := w.proposals ++ [op] } where
  sessions := h.sessions
  follows := h.follows
  proposed op' hmem := by
    rcases List.mem_append.mp hmem with hold | hnew
    · exact h.proposed op' hold
    · rwa [List.mem_singleton.mp hnew]
  logged := h.logged
  called := h.called
  waits := h.waits

theorem setServer (h : Sound seen w) {s : Nat} {srv : Server} (hsrv : Follows w.log srv) :
    Sound seen (w.setServer s srv) where
  sessions := h.sessions
  follows := (Function.forall_update_iff w.servers fun _ srv => Follows w.log srv).mpr
    ⟨hsrv, fun s' _ => h.follows s'⟩
  proposed := h.proposed
  logged := h.logged
  called := h.called
  waits := h.waits

theorem setPending (h : Sound seen w) {pending : Option Nat}
    (hwaits : Waits w c { w.clerks c with pending := pending }) :
    Sound seen (w.setClerk c { w.clerks c with pending := pending }) where
  sessions := by
    show Sessions _ _ (Clerk.session ∘ Function.update w.clerks c _) _ _
    rw [session_pending]
    exact h.sessions
  follows := h.follows
  proposed := h.proposed
  logged := h.logged
  called call hcall := by
    have hnumber := congrArg (fun f : Nat → Session Args => (f call.id.1).number)
      (session_pending w.clerks c pending)
    refine ⟨(h.called call hcall).1, fun reply hr hok => ?_⟩
    exact ((h.called call hcall).2 reply hr hok).imp_right fun hlt => hlt.trans_eq hnumber.symm
  waits := (Function.forall_update_iff w.clerks fun c ck => Waits w c ck).mpr
    ⟨hwaits, fun c' _ => h.waits c'⟩

/-- A clerk begins a request or ends one, and its caller sees that. -/
theorem observed (h : Sound seen w) (seq : Nat) {ck : Clerk} {e : HistoryEvent CallId Args Config}
    (hreqNo : (w.clerks c).reqNo ≤ ck.reqNo) (hpending : ck.pending = none)
    (hsessions : Sessions (fun t => Answers seen (w.log.take t)) (w.trace ++ [(e, w.log.length)])
      (Function.update (Clerk.session ∘ w.clerks) c ck.session) seq w.log.length) :
    Sound seen (({ w with seq := seq }.setClerk c ck).observe e) := by
  have hlater : Later w (({ w with seq := seq }.setClerk c ck).observe e) := by
    refine ⟨⟨[], (List.append_nil _).symm⟩, fun e he => List.mem_append_left _ he, ?_⟩
    exact (Function.forall_update_iff w.clerks fun c' ck => (w.clerks c').reqNo ≤ ck.reqNo).mpr
      ⟨hreqNo, fun _ _ => Nat.le_refl _⟩
  constructor
  case sessions =>
    show Sessions _ _ (Clerk.session ∘ Function.update w.clerks c ck) _ _
    rwa [Function.comp_update]
  case follows => exact h.follows
  case proposed => exact fun op hop => (h.proposed op hop).imp fun _ => hlater.asked
  case logged =>
    exact fun i op hi => (h.logged i op hi).imp fun _ ht => ⟨ht.1, hlater.asked ht.2⟩
  case called => exact fun call hcall => hlater.callSound (h.called call hcall)
  case waits =>
    refine (Function.forall_update_iff w.clerks fun c ck => Waits w c ck).mpr
      ⟨fun k hk => ?_, fun c' _ => h.waits c'⟩
    rw [hpending] at hk
    cases hk

theorem invoke (h : Sound seen w) (c : Nat) (args : Args) : Sound seen (w.invoke c args) :=
  h.observed (w.seq + 1) ((h.sessions.counted c).trans (Nat.le_succ _)) rfl
    (h.sessions.begin c args)

theorem attempt (h : Sound seen w) {args : Args} (hbusy : (w.clerks c).call = some args) (s : Nat) :
    Sound seen (w.attempt c args s) := by
  -- the call is there first, then the clerk waits for it
  have hcalls : Sound seen { w with calls := w.calls ++
      [⟨s, (c, (w.clerks c).reqNo), args, .sent⟩] } := by
    refine ⟨h.sessions, h.follows, h.proposed, h.logged, fun call hmem => ?_, fun c' k hk => ?_⟩
    · rcases List.mem_append.mp hmem with hold | hnew
      · exact h.called call hold
      · cases List.mem_singleton.mp hnew
        exact ⟨h.sessions.busy c args hbusy, nofun⟩
    · obtain ⟨call, hcall, hrest⟩ := h.waits c' k hk
      refine ⟨call, ?_, hrest⟩
      exact (List.getElem?_append_left (List.getElem?_eq_some_iff.mp hcall).1).trans hcall
  refine hcalls.setPending fun k hk => ?_
  cases hk
  exact ⟨_, List.getElem?_concat_length, hbusy, rfl⟩

/-- A clerk takes the answer of its attempt. -/
theorem finish (h : Sound seen w) {reply : Reply} (hpending : (w.clerks c).pending = some k)
    (hcall : w.calls[k]? = some call) (hreplied : call.progress = .replied reply)
    (hok : reply.wrongLeader = false) : Sound seen (w.finish c reply) := by
  obtain ⟨call', hcall', hargs, hid⟩ := h.waits c k hpending
  cases hcall.symm.trans hcall'
  -- the clerk has not gone on, so the reply is an answer
  have hans : Answers seen w.log (c, (w.clerks c).reqNo) call.args reply.config := by
    have := (h.called call (List.mem_of_getElem? hcall)).2 reply hreplied hok
    rw [hid] at this
    exact this.resolve_right (Nat.lt_irrefl _)
  refine h.observed w.seq (Nat.le_refl _) rfl (h.sessions.done hargs ?_)
  rwa [List.take_length]

/-- A proposal becomes an entry. -/
theorem append (h : Sound seen w) {j : Nat} {op : Op} (hop : w.proposals[j]? = some op) :
    Sound seen { w with log := w.log ++ [op], proposals := w.proposals.eraseIdx j } := by
  have hlater : Later w { w with log := w.log ++ [op], proposals := w.proposals.eraseIdx j } :=
    ⟨⟨[op], rfl⟩, fun _ he => he, fun _ => Nat.le_refl _⟩
  refine ⟨?_, fun s => (h.follows s).append [op], fun op' hmem => ?_, fun i op' hi => ?_,
    fun call hcall => hlater.callSound (h.called call hcall), h.waits⟩
  · refine h.sessions.later (by simp) fun t ht id input out ha => ?_
    rwa [List.take_append_of_le_length ht]
  · exact h.proposed op' (List.mem_of_mem_eraseIdx hmem)
  · rcases Nat.lt_trichotomy i w.log.length with hlt | rfl | hgt
    · rw [List.getElem?_append_left hlt] at hi
      exact h.logged i op' hi
    · rw [List.getElem?_concat_length] at hi
      cases hi
      obtain ⟨t, id, args, heq, hinv⟩ := h.proposed op (List.mem_of_getElem? hop)
      exact ⟨t, h.sessions.stamped _ hinv, id, args, heq, hinv⟩
    · rw [List.getElem?_eq_none (by simpa using Nat.succ_le_of_lt hgt)] at hi
      cases hi

theorem stop_cases (s : Nat) (call : Call) :
    call.stop s = call ∨ call.stop s = { call with progress := .gone } := by
  unfold Call.stop
  split
  · split
    · exact .inr rfl
    · exact .inl rfl
  · exact .inl rfl

theorem restart (h : Sound seen w) (s : Nat) : Sound seen (w.restart s) := by
  have hserver := h.setServer (s := s) (.start w.log)
  refine ⟨hserver.sessions, hserver.follows, h.proposed, h.logged, fun call hmem => ?_,
    fun c k hk => ?_⟩
  · obtain ⟨call, hcall, rfl⟩ := List.mem_map.mp hmem
    rcases stop_cases s call with hstop | hstop <;> rw [hstop]
    · exact h.called call hcall
    · exact ⟨(h.called call hcall).1, nofun⟩
  · obtain ⟨call, hcall, hargs, hid⟩ := h.waits c k hk
    refine ⟨call.stop s, List.getElem?_map.trans (congrArg (Option.map _) hcall), ?_⟩
    rcases stop_cases s call with hstop | hstop <;> rw [hstop] <;> exact ⟨hargs, hid⟩

/-- A server that has completed a request it reads the answer for gives an answer. -/
theorem answers (h : Sound seen w) (hcall : call ∈ w.calls)
    (hdone : (call.id.2 : Int) ≤ (w.servers call.server).completed call.id.1) {config : Config}
    (hseen : (call.id, config, w.log.length) ∈ seen)
    (hconfig : ∀ num, call.args = .query num →
      Server.queryConfig (w.servers call.server).sc num = some config ∧
        (Created w.log num → num < (w.servers call.server).sc.configs.length)) :
    Answers seen w.log call.id call.args config ∨ call.id.2 < (w.clerks call.id.1).reqNo := by
  have hfollows := h.follows call.server
  obtain ⟨t, hinv⟩ := (h.called call hcall).1
  refine (h.executed hfollows hinv hdone).imp_left fun hexec => ?_
  refine ⟨_, _, hseen, hfollows.le, Nat.le_refl _, hexec, fun num hnum => ?_⟩
  obtain ⟨hvalue, hcurrent⟩ := hconfig num hnum
  exact ⟨_, hfollows.state, hvalue, fun hcreated => hcurrent (by rwa [List.take_length] at hcreated)⟩

end Sound

/-! ### Runs -/

/-- A step that was taken, with what it needed. -/
inductive Stepped (w : World) : Action → World → Prop
  | invoke {c : Nat} {args : Args} : Stepped w (.invoke c args) (w.invoke c args)
  | attempt {c s : Nat} {args : Args} (hbusy : (w.clerks c).call = some args) :
      Stepped w (.attempt c s) (w.attempt c args s)
  | enter {k : Nat} {isLeader started : Bool} {call : Call} (hcall : w.calls[k]? = some call) :
      Stepped w (.enter k isLeader started) (w.enter k call isLeader started)
  | reply {k : Nat} {leads : Bool} {call : Call} {reply : Reply} (hcall : w.calls[k]? = some call)
      (hwake : (w.servers call.server).wake leads call.op = .reply reply) :
      Stepped w (.wake k leads) (w.advance k call (.replied reply))
  | wait {k : Nat} {leads : Bool} : Stepped w (.wake k leads) w
  | fail {c : Nat} : Stepped w (.fail c) (w.setClerk c { w.clerks c with pending := none })
  | finish {c k : Nat} {call : Call} {reply : Reply} (hpending : (w.clerks c).pending = some k)
      (hcall : w.calls[k]? = some call) (hreplied : call.progress = .replied reply)
      (hok : reply.wrongLeader = false) : Stepped w (.finish c) (w.finish c reply)
  | append {j : Nat} {op : Op} (hop : w.proposals[j]? = some op) : Stepped w (.append j)
      { w with log := w.log ++ [op], proposals := w.proposals.eraseIdx j }
  | apply {s : Nat} {orders : Orders} {op : Op} {srv : Server}
      (hop : w.log[(w.servers s).commitedId]? = some op)
      (hsrv : (w.servers s).applyCommand orders op ((w.servers s).commitedId + 1) = some srv) :
      Stepped w (.apply s orders) (w.setServer s srv)
  | restart {s : Nat} : Stepped w (.restart s) (w.restart s)

theorem step_cases {w w' : World} {a : Action} (h : service.step w a = some w') :
    Stepped w a w' := by
  cases a with
  | invoke c args =>
    simp only [service, step] at h
    split at h <;> cases h
    exact .invoke
  | attempt c s =>
    simp only [service, step] at h
    split at h <;> cases h
    rename_i hbusy _
    exact .attempt hbusy
  | enter k isLeader started =>
    simp only [service, step] at h
    split at h
    · cases h
    · rename_i hcall
      split at h <;> cases h
      exact .enter hcall
  | wake k leads =>
    simp only [service, step] at h
    split at h
    · cases h
    · rename_i hcall
      split at h
      · split at h <;> cases h
        · rename_i hwake
          exact .reply hcall hwake
        · exact .wait
      · cases h
  | fail c =>
    simp only [service, step] at h
    split at h <;> cases h
    exact .fail
  | finish c =>
    simp only [service, step] at h
    split at h
    · cases h
    · rename_i call hpending
      obtain ⟨k, hk, hcall⟩ := Option.bind_eq_some_iff.mp hpending
      split at h
      · rename_i reply hreplied
        split at h <;> cases h
        rename_i hok
        exact .finish hk hcall hreplied (by simpa using hok)
      · cases h
  | append j =>
    obtain ⟨op, hop, rfl⟩ := Option.map_eq_some_iff.mp h
    exact .append hop
  | apply s orders =>
    obtain ⟨op, hop, hstep⟩ := Option.bind_eq_some_iff.mp h
    obtain ⟨srv, hsrv, rfl⟩ := Option.map_eq_some_iff.mp hstep
    exact .apply hop hsrv
  | restart s =>
    cases h
    exact .restart

/-- A request to look something up. -/
def Args.IsQuery : Args → Prop
  | .query _ => True
  | _ => False

/-- No `Query` reaches a leader that has completed it. -/
def FreshQuery (w : World) : Action → Prop
  | .enter k isLeader _ => ∀ call ∈ w.calls[k]?, isLeader = true → call.args.IsQuery →
      (w.servers call.server).completed call.id.1 < call.id.2
  | _ => True

instance : (args : Args) → Decidable args.IsQuery
  | .query _ => isTrue trivial
  | .join _ | .leave _ | .move _ _ => isFalse id

instance (w : World) : (a : Action) → Decidable (FreshQuery w a)
  | .enter k _ _ => inferInstanceAs (Decidable (∀ call ∈ w.calls[k]?, _))
  | .invoke _ _ | .attempt _ _ | .wake _ _ | .fail _ | .finish _ | .append _ | .apply _ _
  | .restart _ => isTrue trivial

/-- The server has every configuration that a `Query` asks for and the log creates. -/
def UpToDate (srv : Server) (log : List Op) : Args → Prop
  | .query num => Created log num → num < srv.sc.configs.length
  | _ => True

instance (srv : Server) (log : List Op) : (args : Args) → Decidable (UpToDate srv log args)
  | .query num => inferInstanceAs (Decidable (Created log num → num < srv.sc.configs.length))
  | .join _ | .leave _ | .move _ _ => isTrue trivial

/-- Whoever answers a `Query` after the wait has the configuration that it asks for, if there is
one. -/
def CurrentQuery (w : World) : Action → Prop
  | .wake k leads => ∀ call ∈ w.calls[k]?, leads = true →
      (w.servers call.server).completedPool call.id.1 = some (call.id.2 : Int) →
      UpToDate (w.servers call.server) w.log call.args
  | _ => True

instance (w : World) : (a : Action) → Decidable (CurrentQuery w a)
  | .wake k _ => inferInstanceAs (Decidable (∀ call ∈ w.calls[k]?, _))
  | .invoke _ _ | .attempt _ _ | .enter _ _ _ | .fail _ | .finish _ | .append _ | .apply _ _
  | .restart _ => isTrue trivial

/-- Every `Query` is answered after its wait, by a server that is not behind. -/
def ServesQueries (w : World) (a : Action) : Prop := FreshQuery w a ∧ CurrentQuery w a

instance (w : World) (a : Action) : Decidable (ServesQueries w a) :=
  inferInstanceAs (Decidable (_ ∧ _))

section Step
variable {seen : List (CallId × Config × Nat)} {w w' : World} {k : Nat} {call : Call}

theorem Sound.enter (h : Sound seen w) {isLeader started : Bool} (hcall : w.calls[k]? = some call)
    (hfresh : FreshQuery w (.enter k isLeader started))
    (hseen : replies w (.enter k isLeader started) ⊆ seen) :
    Sound seen (w.enter k call isLeader started) := by
  have hmem := List.mem_of_getElem? hcall
  obtain ⟨t, hinv⟩ := (h.called call hmem).1
  simp only [replies, hcall, Option.toList_some, List.flatMap_singleton] at hseen
  unfold World.enter Server.enter
  unfold Server.enter at hseen
  cases isLeader with
  | false => exact h.reply hcall nofun
  | true =>
    by_cases hdone : (call.id.2 : Int) ≤ (w.servers call.server).completed call.id.1
    · simp only [Call.op, Op.ofCall, hdone, Bool.not_true, Bool.false_eq_true, if_false, if_true]
        at hseen ⊢
      refine h.reply hcall fun _ => h.answers hmem hdone (hseen ?_) fun num hnum => ?_
      · simp [answered, Entered.reply?]
      · have := hfresh call hcall rfl (hnum ▸ trivial)
        omega
    · simp only [Call.op, Op.ofCall, hdone, Bool.not_true, Bool.false_eq_true, if_false]
      split
      · refine (h.propose ⟨t, call.id, call.args, rfl, hinv⟩).advance hcall ⟨⟨t, hinv⟩, nofun⟩
      · exact h.reply hcall nofun

theorem Sound.wake (h : Sound seen w) {leads : Bool} {reply : Reply}
    (hcall : w.calls[k]? = some call)
    (hwake : (w.servers call.server).wake leads call.op = .reply reply)
    (hcurrent : CurrentQuery w (.wake k leads)) (hseen : replies w (.wake k leads) ⊆ seen) :
    Sound seen (w.advance k call (.replied reply)) := by
  simp only [replies, hcall, Option.toList_some, List.flatMap_singleton, hwake] at hseen
  unfold Server.wake at hwake
  split at hwake
  · cases hwake
    exact h.reply hcall nofun
  rename_i hleads
  split at hwake
  · rename_i hdone
    split at hwake
    · rename_i config hconfig
      cases hwake
      have hdone' : (w.servers call.server).completedPool call.id.1 = some (call.id.2 : Int) := hdone
      have hknows := hcurrent call hcall (by simpa using hleads) hdone'
      refine h.reply hcall fun _ =>
        h.answers (List.mem_of_getElem? hcall) ?_ (hseen ?_) fun num hnum => ?_
      · simp [Server.completed, hdone']
      · simp [answered, Woken.reply?]
      · have hconfig' : (w.servers call.server).answer call.args = some config := hconfig
        rw [hnum] at hconfig' hknows
        exact ⟨hconfig', hknows⟩
    · cases hwake
  · cases hwake

theorem Sound.step {a : Action} (h : Sound seen w) (hok : ServesQueries w a)
    (hseen : replies w a ⊆ seen) (hstep : service.step w a = some w') : Sound seen w' := by
  cases step_cases hstep with
  | invoke => exact h.invoke _ _
  | attempt hbusy => exact h.attempt hbusy _
  | enter hcall => exact h.enter hcall hok.1 hseen
  | reply hcall hwake => exact h.wake hcall hwake hok.2 hseen
  | wait => exact h
  | fail => exact h.setPending nofun
  | finish hpending hcall hreplied hleader => exact h.finish hpending hcall hreplied hleader
  | append hop => exact h.append hop
  | apply hop hsrv => exact h.setServer ((h.follows _).apply hop hsrv)
  | restart => exact h.restart _

end Step

theorem sound_of_reach {s : World × List (CallId × Config × Nat)}
    (h : (service.record replies).Reach (fun s a => ServesQueries s.1 a) s) : Sound s.2 s.1 := by
  refine h.invariant (P := fun s => Sound s.2 s.1) .initial fun s a s' _ hsound hok hstep => ?_
  obtain ⟨hstep, hseen⟩ := System.record_step.mp hstep
  rw [hseen]
  exact (hsound.mono (List.subset_append_left _ _)).step hok (List.subset_append_right _ _) hstep

/-- Of two prefixes of the log the longer one has the configurations of the other. -/
theorem configs_prefix_take {log : List Op} {p p' : Nat} (hle : p ≤ p') {srv srv' : Server}
    (h : agreed (log.take p) = some srv) (h' : agreed (log.take p') = some srv') :
    srv.sc.configs <+: srv'.sc.configs := by
  obtain ⟨l, hl⟩ : log.take p <+: log.take p' := List.take_prefix_take_left hle
  rw [← hl] at h'
  exact configs_prefix_replay h h'

/-- Two prefixes of the log agree on a configuration that both have. -/
theorem configs_getElem?_take {log : List Op} {p p' : Nat} {srv srv' : Server}
    (h : agreed (log.take p) = some srv) (h' : agreed (log.take p') = some srv') {i : Nat}
    (hi : i < srv.sc.configs.length) (hi' : i < srv'.sc.configs.length) :
    srv.sc.configs[i]? = srv'.sc.configs[i]? := by
  rw [List.getElem?_eq_getElem hi, List.getElem?_eq_getElem hi']
  rcases Nat.le_total p p' with hle | hle
  · rw [(configs_prefix_take hle h h').getElem hi]
  · rw [(configs_prefix_take hle h' h).getElem hi']

/-- A call that returned before another one began was executed before it. -/
theorem Sound.executed_before {seen : List (CallId × Config × Nat)} {w : World} (h : Sound seen w)
    {id id' : CallId} {args args' : Args}
    {t : Nat} (hinv : (.invoke id args, t) ∈ w.trace) (hinv' : .invoke id' args' ∈ w.history)
    (hprec : Precedes w.history id' id) : .ofCall id' args' ∈ fresh (w.log.take t) := by
  obtain ⟨i, j, out, input, hij, hi, hj⟩ := hprec
  simp only [World.history, List.getElem?_map, Option.map_eq_some_iff, Prod.exists,
    exists_and_right, exists_eq_right, List.mem_map] at hi hj hinv'
  obtain ⟨t', ht'⟩ := hi
  obtain ⟨t₁, ht₁⟩ := hj
  obtain ⟨t₂, ht₂⟩ := hinv'
  have hle : t' ≤ t₁ := by
    obtain ⟨hi', hi⟩ := List.getElem?_eq_some_iff.mp ht'
    obtain ⟨hj', hj⟩ := List.getElem?_eq_some_iff.mp ht₁
    have := List.pairwise_iff_getElem.mp h.sessions.sorted i j hi' hj' hij
    rwa [hi, hj] at this
  obtain ⟨-, rfl⟩ := h.sessions.single _ _ _ _ _ hinv (List.mem_of_getElem? ht₁)
  obtain ⟨args₀, t₀, hinv₀, q, r, -, hqr, hr, hexec, -⟩ :=
    h.sessions.responded _ _ _ (List.mem_of_getElem? ht')
  obtain ⟨rfl, -⟩ := h.sessions.single _ _ _ _ _ ht₂ hinv₀
  rw [List.length_take] at hr
  rw [List.take_take] at hexec
  obtain ⟨k, hk, hentry⟩ := mem_fresh_take.mp hexec
  exact mem_fresh_take.mpr ⟨k, by omega, hentry⟩

/-- **What `Query` returns.** In a run in which no `Query` reaches a leader that has completed it and
none is answered by a server that is behind, a returned configuration was put into a reply when the
log had `r` entries, by a server that had applied `q` of them; both are between the call and the
return. A `Query` for a configuration that existed at the reply returns this one, and any other
`Query` the last one after the `q` entries. All calls that returned before the call are executed in
the `q` entries, and later entries do not change these configurations. -/
theorem query_answers {s : World × List (CallId × Config × Nat)}
    (h : (service.record replies).Reach (fun s a => ServesQueries s.1 a) s) {id : CallId}
    {num : Int} {config : Config} {t₀ t : Nat} (hcall : (.invoke id (.query num), t₀) ∈ s.1.trace)
    (hreturn : (.respond id config, t) ∈ s.1.trace) :
    ∃ q r srv, t₀ < q ∧ q ≤ r ∧ r ≤ t ∧ (id, config, r) ∈ s.2 ∧
      agreed (s.1.log.take q) = some srv ∧
      (0 ≤ num → ∀ p ≤ r, ∀ srv', agreed (s.1.log.take p) = some srv' →
        num < srv'.sc.configs.length → srv'.sc.configs[num.toNat]? = some config) ∧
      (num = -1 ∨ ¬ Created (s.1.log.take r) num → srv.sc.configs.getLast? = some config) ∧
      (∀ id' args', .invoke id' args' ∈ s.1.history → Precedes s.1.history id' id →
        .ofCall id' args' ∈ fresh (s.1.log.take q)) ∧
      ∀ q' srv', q ≤ q' → agreed (s.1.log.take q') = some srv' →
        srv.sc.configs <+: srv'.sc.configs := by
  have hsound := sound_of_reach h
  obtain ⟨args, t₁, hinv, q, r, hseen, hqr, hr, hexec, hvalue⟩ :=
    hsound.sessions.responded _ _ _ hreturn
  obtain ⟨rfl, rfl⟩ := hsound.sessions.single _ _ _ _ _ hcall hinv
  obtain ⟨srv, hagreed, hconfig, hcurrent⟩ := hvalue num rfl
  rw [List.length_take] at hr
  rw [List.take_take, Nat.min_eq_left (by omega)] at hexec hagreed hcurrent
  -- the entry of the call came after the call
  obtain ⟨i, hi, hentry, -⟩ := mem_fresh_take.mp hexec
  obtain ⟨t', hle, id', args', heq, hinv'⟩ := hsound.logged i _ hentry
  obtain ⟨rfl, rfl⟩ := ofCall_inj heq
  obtain ⟨-, rfl⟩ := hsound.sessions.single _ _ _ _ _ hcall hinv'
  obtain ⟨hnamed, hlast⟩ := queryConfig_eq hconfig
  have hcreated : ∀ p ≤ r, ∀ srv', agreed (s.1.log.take p) = some srv' →
      num < srv'.sc.configs.length → Created (s.1.log.take r) num := by
    intro p hp srv' hagreed' hnum
    refine ⟨p, by rw [List.length_take]; omega, srv', ?_, hnum⟩
    rwa [List.take_take, Nat.min_eq_left hp]
  refine ⟨q, r, srv, by omega, hqr, by omega, hseen, hagreed, fun hpos p hp srv' hagreed' hnum => ?_,
    fun hout => hlast ?_, fun id' args' hin hprec => ?_,
    fun q' srv' hqq' hagreed' => configs_prefix_take hqq' hagreed hagreed'⟩
  · -- the server that answered has the configuration, and all prefixes agree on it
    have hhas := hcurrent (hcreated p hp srv' hagreed' hnum)
    rw [configs_getElem?_take hagreed' hagreed (by omega) (by omega)]
    exact hnamed ⟨hpos, hhas⟩
  · refine hout.imp_right fun hnot => Int.not_lt.mp fun hlt => hnot ?_
    exact hcreated q hqr srv hagreed hlt
  · obtain ⟨k, hk, hexec'⟩ := mem_fresh_take.mp (hsound.executed_before hcall hin hprec)
    exact mem_fresh_take.mpr ⟨k, by omega, hexec'⟩

/-- A group joins; then clerk 2 asks for the latest configuration. -/
def joinFirst : List Action :=
  [.invoke 1 (.join (.ofList [(1, ["a"])])), .attempt 1 0, .enter 0 true true, .append 0,
   .apply 0 sortedOrders, .wake 0 true, .finish 1, .invoke 2 (.query (-1)), .attempt 2 0]

/-- The first request of clerk 2 is lost. -/
def lostRequest : List Action :=
  joinFirst ++ [.fail 2, .attempt 2 0, .enter 2 true true, .append 0, .apply 0 sortedOrders,
    .wake 2 true, .finish 2]

/-- The number of the configuration that a call returned, with the time. -/
def returnedNum : HistoryEvent CallId Args Config × Nat → Option (CallId × Nat × Nat)
  | (.respond id config, t) => some (id, config.num, t)
  | (.invoke _ _, _) => none

theorem exists_respond {w : World} {id : CallId} {num t : Nat}
    (h : (id, num, t) ∈ w.trace.filterMap returnedNum) :
    ∃ config : Config, (.respond id config, t) ∈ w.trace ∧ config.num = num := by
  obtain ⟨⟨e, t'⟩, hmem, heq⟩ := List.mem_filterMap.mp h
  cases e with
  | invoke _ _ => cases heq
  | respond _ config =>
    cases heq
    exact ⟨config, hmem, rfl⟩

theorem lostRequest_runs :
    (((service.record replies).runWhere (fun s a => ServesQueries s.1 a)
        (service.record replies).init lostRequest).map fun s =>
      decide ((.invoke (2, 2) (.query (-1)), 1) ∈ s.1.trace ∧
        ((2, 2), 1, 2) ∈ s.1.trace.filterMap returnedNum)) = some true := by
  decide +kernel

theorem query_answers_lostRequest : ∃ s q r srv config,
    (service.record replies).runWhere (fun s a => ServesQueries s.1 a)
      (service.record replies).init lostRequest = some s ∧ 1 < q ∧ q ≤ r ∧ r ≤ 2 ∧
      agreed (s.1.log.take q) = some srv ∧ srv.sc.configs.getLast? = some config ∧
      config.num = 1 := by
  obtain ⟨s, hrun, hs⟩ := Option.map_eq_some_iff.mp lostRequest_runs
  obtain ⟨hcall, hret⟩ := of_decide_eq_true hs
  obtain ⟨config, hreturn, hnum⟩ := exists_respond hret
  obtain ⟨q, r, srv, hlt, hqr, hle, -, hagreed, -, hlast, -⟩ :=
    query_answers (System.reach_runWhere .init _ hrun) hcall hreturn
  exact ⟨s, q, r, srv, config, hrun, hlt, hqr, hle, hagreed, hlast (.inl rfl), hnum⟩

/-- The reply to the first request of clerk 2 is lost. -/
def lostReply : List Action :=
  joinFirst ++ [.enter 1 true true, .append 0, .apply 0 sortedOrders, .wake 1 true, .fail 2,
    .attempt 2 0, .enter 2 true true, .finish 2]

theorem lostReply_runs : ((service.run service.init lostReply).map fun w =>
    decide ((HistoryEvent.invoke (2, 2) (Args.query (-1)), 1) ∈ w.trace ∧
      ((2, 2), 0, 2) ∈ w.trace.filterMap returnedNum ∧ ∀ q ∈ List.range' 1 2,
        ((agreed (w.log.take q)).bind (·.sc.configs.getLast?)).map (·.num) = some 1)) =
          some true := by
  decide +kernel

/-- Clerk 2 gets configuration 0, but configuration 1 was the last one all the time since its
call. -/
theorem query_empty_lostReply : ∃ w config, service.run service.init lostReply = some w ∧
    (.invoke (2, 2) (.query (-1)), 1) ∈ w.trace ∧ (.respond (2, 2) config, 2) ∈ w.trace ∧
    config.num = 0 ∧ ∀ q ∈ List.range' 1 2,
      ((agreed (w.log.take q)).bind (·.sc.configs.getLast?)).map (·.num) = some 1 := by
  obtain ⟨w, hrun, hw⟩ := Option.map_eq_some_iff.mp lostReply_runs
  obtain ⟨hcall, hret, hlast⟩ := of_decide_eq_true hw
  obtain ⟨config, hreturn, hnum⟩ := exists_respond hret
  exact ⟨w, config, hrun, hcall, hreturn, hnum, hlast⟩

/-- Clerk 2 asks for configuration 2. Server 0 has applied the request when it is replaced; a second
group joins through server 1, and then the handler of server 0 is woken. -/
def replacedLeader : List Action :=
  [.invoke 1 (.join (.ofList [(1, ["a"])])), .attempt 1 0, .enter 0 true true, .append 0,
   .apply 0 sortedOrders, .wake 0 true, .finish 1, .invoke 2 (.query 2), .attempt 2 0,
   .enter 1 true true, .append 0, .apply 0 sortedOrders,
   .invoke 3 (.join (.ofList [(2, ["b"])])), .attempt 3 1, .enter 2 true true, .append 0,
   .apply 1 sortedOrders, .apply 1 sortedOrders, .apply 1 sortedOrders, .wake 2 true, .finish 3,
   .wake 1 true, .finish 2]

theorem replacedLeader_runs :
    (((service.record replies).runWhere (fun s a => FreshQuery s.1 a)
        (service.record replies).init replacedLeader).map fun s =>
      decide (((2, 2), 1, 3) ∈ s.1.trace.filterMap returnedNum ∧
        (s.2.filter fun e => e.1 = (2, 2)).map (fun e => (e.2.1.num, e.2.2)) = [(1, 3)] ∧
        ((agreed (s.1.log.take 3)).bind (·.sc.configs[2]?)).map (·.num) = some 2)) =
      some true := by
  decide +kernel

/-- Clerk 2 gets configuration 1, but configuration 2 existed when the reply was made. -/
theorem query_behind : ∃ s config, (service.record replies).Reach (fun s a => FreshQuery s.1 a) s ∧
    (.respond (2, 2) config, 3) ∈ s.1.trace ∧ config.num = 1 ∧
    ((agreed (s.1.log.take 3)).bind (·.sc.configs[2]?)).map (·.num) = some 2 := by
  obtain ⟨s, hreach, hret, -, hcreated⟩ := System.exists_reach_of_runWhere replacedLeader_runs
  obtain ⟨config, hreturn, hnum⟩ := exists_respond hret
  exact ⟨s, config, hreach, hreturn, hnum, hcreated⟩

end RaftLabs.ShardCtrler
