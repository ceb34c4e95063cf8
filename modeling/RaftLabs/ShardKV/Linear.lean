import RaftLabs.Lib.Sessions
import RaftLabs.ShardKV.Execution

/-! The sharded service is linearizable, also while shards move.

An update takes its place in the order from the entry at which some group executes it; there is
one such entry, whatever groups the clerk has tried. A `Get` is answered from the prefix of the
logs that the answering replica has applied. When it is answered from the table, its own entry is
in this prefix, and the replica has the shard, so the value is the one that the executed
operations of the prefix leave. -/
namespace RaftLabs.ShardKV
open Lib ShardCtrler

variable {H : ConfigHistory} {commits : List (Int × Op)} {skv : ShardKV} {g : Int} {q i : Nat}
variable {w w' : World} {args : Args} {op : Op} {value : String} {id : CallId} {input : Request}
variable {x : Int × Op}

/-! ### Answers -/

/-- The call was executed, and `value` is the answer to it after a prefix that holds its entry. -/
def Answers (commits : List (Int × Op)) (id : CallId) (request : Request) (value : String) : Prop :=
  ∃ q ≤ commits.length, (∃ i < q, ∃ g args, Executed commits i g args ∧ args.clientId = id.1 ∧
    args.reqNo = id.2) ∧ value = (mapObject.step (values (commits.take q)) request).2

theorem Answers.concat (h : Answers commits id input value) (x : Int × Op) :
    Answers (commits ++ [x]) id input value := by
  obtain ⟨q, hq, ⟨i, hi, g, args, hexec, hargs⟩, hvalue⟩ := h
  refine ⟨q, ?_, ⟨i, hi, g, args, hexec.concat x, hargs⟩, ?_⟩
  · rw [List.length_append]
    exact hq.trans (Nat.le_add_right _ _)
  · rwa [List.take_append_of_le_length hq]

/-- What an operation reads in a group that has its shard. -/
theorem Lawful.readValue_eq (h : Lawful H commits) (hfull : H.Full)
    (hshard : ∀ args', args = .get args' → (groupAt commits g).shards (key2shard args'.key) = true) :
    readValue (groupAt commits g).shardKVMap args =
      (mapObject.step (values commits) args.request).2 := by
  cases args with
  | get args => exact (h.kept hfull (.held (hshard args rfl))).value args.key rfl
  | putAppend args => exact (step_putAppend _ _ _ _).symm

/-- The result of an operation that a group executes is an answer to it. -/
theorem Lawful.answers_of_executed (h : Lawful H commits) (hfull : H.Full)
    (hexec : Executed commits i g args) :
    Answers commits (args.clientId, args.reqNo) args.request
      (readValue (groupAt (commits.take i) g).shardKVMap args) := by
  refine ⟨i + 1, hexec.lt, ⟨i, Nat.lt_succ_self i, g, args, hexec, rfl, rfl⟩, ?_⟩
  have htake : commits.take (i + 1) = commits.take i ++ [(g, .client args)] := by
    rw [List.take_add_one, hexec.entry]
    rfl
  have hhas := (opErr_eq_ok.mp hexec.executes.2).2
  have hargs := (h.entry hexec.entry).2
  have hheld : ∀ args', args = .get args' →
      (groupAt (commits.take i) g).shards (key2shard args'.key) = true := by
    rintro args' rfl
    cases hargs with
    | client hshard => rw [← show args'.shardId = key2shard args'.key from hshard]; exact hhas
  rw [(h.take i).readValue_eq hfull hheld, htake, values_concat_of_executes hexec.executes]
  -- an operation returns the same when it is looked at again right after it
  cases args with
  | get => rfl
  | putAppend args => exact (step_putAppend _ _ _ _).trans (step_putAppend _ _ _ _).symm

/-- A replica that applies the next entry of its log stands where its group stood before it. -/
theorem IsReplay.exists_entry (h : IsReplay commits g skv)
    (hop : (logOf g commits)[skv.commitedId]? = some op) :
    ∃ i, commits[i]? = some (g, op) ∧ Agrees (groupAt (commits.take i) g) skv := by
  obtain ⟨q, hq, hagrees⟩ := h
  rw [hagrees.commitedId, groupAt, commitedId_replay] at hop
  obtain ⟨i, -, hi, hlog⟩ := exists_next hop
  refine ⟨i, hi, ?_⟩
  rw [groupAt, hlog]
  exact hagrees

theorem Agrees.opErr_eq {base : ShardKV} (h : Agrees base skv) (s : Shard) :
    skv.opErr s = base.opErr s := by
  simp only [opErr, h.curConfig, h.gid, h.shards]

theorem opErr_ne_noKey (skv : ShardKV) (s : Shard) : skv.opErr s ≠ .noKey := by
  unfold opErr
  split
  · decide
  · split <;> decide

theorem enter_reply {isLeader : Bool} {key : String} {c r : Nat} {duplicate reply : Reply}
    (h : skv.enter isLeader key c r duplicate op = .reply reply) :
    reply.err = .wrongLeader ∨ reply.err = .wrongGroup ∨
      (skv.clientInfo.isNew c r = false ∧ reply = duplicate) := by
  unfold ShardKV.enter at h
  split at h
  · cases h
    exact .inl rfl
  split at h
  · cases h
    exact .inr (.inl rfl)
  split at h
  · rename_i hdone
    cases h
    exact .inr (.inr ⟨by simpa using hdone, rfl⟩)
  · cases h

/-- A handler that answers OK at once does so for a request that is done, and a `Get` reads a
shard that the replica has. -/
theorem serve_reply {isLeader : Bool} {reply : Reply} (h : skv.serve isLeader args = .reply reply) :
    reply.err ≠ .noKey ∧ (reply.err = .ok →
      skv.clientInfo.isNew args.clientId args.reqNo = false ∧
      reply.value = readValue skv.shardKVMap args ∧
      ∀ args', args = .get args' → skv.shards (key2shard args'.key) = true) := by
  cases args with
  | get args =>
    rcases enter_reply h with herr | herr | ⟨hdone, rfl⟩
    · simp [herr]
    · simp [herr]
    · by_cases hhas : skv.shards (key2shard args.key) = true
      · refine ⟨by simp [hhas], fun _ => ⟨hdone, by simp [hhas, readValue], ?_⟩⟩
        intro args' heq
        cases heq
        exact hhas
      · simp [hhas]
  | putAppend args =>
    rcases enter_reply h with herr | herr | ⟨hdone, rfl⟩
    · simp [herr]
    · simp [herr]
    · exact ⟨nofun, fun _ => ⟨hdone, rfl, nofun⟩⟩

/-! ### What the callers see -/

def Event.history : Event → HistoryEvent CallId Request String
  | .invoke id request => .invoke id request
  | .respond id _ value => .respond id value

def Event.request : Event → Request
  | .invoke _ request => request
  | .respond _ request _ => request

def Clerk.session (ck : Clerk) : Session Request where
  number := ck.reqNo
  call := ck.request

/-- The trace as invocations and responses, with their stamps. -/
def World.stamped (w : World) : List (HistoryEvent CallId Request String × Nat) :=
  w.trace.map fun e => (e.1.history, e.2)

def World.history (w : World) : List (HistoryEvent CallId Request String) :=
  w.trace.map (·.1.history)

/-- What the callers see of one key. -/
def World.keyHistory (w : World) (key : String) : List (HistoryEvent CallId Request String) :=
  (w.trace.filter fun e => e.1.request.key = key).map (·.1.history)

theorem World.stamped_observe (w : World) (e : Event) :
    (w.observe e).stamped = w.stamped ++ [(e.history, w.commits.length)] := by
  rw [World.stamped, World.observe, List.map_append]
  rfl

/-- The request was made when the logs had `t` entries. -/
def Asked (w : World) (args : Args) (t : Nat) : Prop :=
  (.invoke (args.clientId, args.reqNo) args.request, t) ∈ w.stamped

theorem clerk_args (c r : Nat) (request : Request) :
    (Clerk.args c r request).clientId = c ∧ (Clerk.args c r request).reqNo = r ∧
      (Clerk.args c r request).request = request := by
  cases request <;> exact ⟨rfl, rfl, rfl⟩

/-- A reply is no answer, or an answer to its call, or its clerk has gone on to another call. -/
def ReplySound (w : World) (args : Args) (reply : Reply) : Prop :=
  reply.err ≠ .noKey ∧ (reply.err = .ok →
    Answers w.commits (args.clientId, args.reqNo) args.request reply.value ∨
      args.reqNo < (w.clerks args.clientId).reqNo)

/-- A result in a channel is an answer to the call it is for. -/
def ResultSound (w : World) (result : Result) : Prop :=
  result.err ≠ .noKey ∧ (result.err = .ok →
    ∃ request t, (.invoke (result.clientId, result.reqNo) request, t) ∈ w.stamped ∧
      Answers w.commits (result.clientId, result.reqNo) request result.value)

structure Served (w : World) : Prop where
  sessions : Sessions (fun t => Answers (w.commits.take t)) w.stamped (Clerk.session ∘ w.clerks)
    w.seq w.commits.length
  named : ∀ id request value t, (.respond id request value, t) ∈ w.trace →
    ∃ t₀, (.invoke id request, t₀) ∈ w.trace
  proposed : ∀ g args, .client args ∈ (w.groups g).proposals → ∃ t, Asked w args t
  logged : ∀ (i : Nat) g args, w.commits[i]? = some (g, .client args) → ∃ t ≤ i, Asked w args t
  called : ∀ call ∈ w.calls, ∃ t, Asked w call.args t
  replied : ∀ call ∈ w.calls, ∀ reply, call.progress = .replied reply →
    ReplySound w call.args reply
  result : ∀ e ∈ w.results, ResultSound w e.2
  pending : ∀ c k, (w.clerks c).pending = some k → ∃ (call : Call) (request : Request),
    w.calls[k]? = some call ∧ (w.clerks c).request = some request ∧
      call.args = Clerk.args c (w.clerks c).reqNo request

theorem Served.initial : Served .initial where
  sessions := Sessions.initial
  named _ _ _ _ h := nomatch h
  proposed _ _ h := nomatch h
  logged _ _ _ h := nomatch h
  called _ h := nomatch h
  replied _ h := nomatch h
  result _ h := nomatch h
  pending _ _ h := nomatch h

/-! ### What a step keeps -/

/-- What only grows. -/
structure Later (w w' : World) : Prop where
  commits : ∃ l, w'.commits = w.commits ++ l
  stamped : ∀ e ∈ w.stamped, e ∈ w'.stamped
  reqNo : ∀ c, (w.clerks c).reqNo ≤ (w'.clerks c).reqNo

theorem Answers.append (h : Answers commits id input value) (l : List (Int × Op)) :
    Answers (commits ++ l) id input value := by
  induction l generalizing commits with
  | nil => rwa [List.append_nil]
  | cons x l ih =>
    rw [List.append_cons]
    exact ih (h.concat x)

theorem Later.asked {t : Nat} (h : Later w w') (ha : Asked w args t) : Asked w' args t :=
  h.stamped _ ha

theorem Later.answers (h : Later w w') (ha : Answers w.commits id input value) :
    Answers w'.commits id input value := by
  obtain ⟨l, hl⟩ := h.commits
  rw [hl]
  exact ha.append l

theorem Later.reply {reply : Reply} (h : Later w w') (hr : ReplySound w args reply) :
    ReplySound w' args reply :=
  ⟨hr.1, fun hok => (hr.2 hok).imp h.answers fun hlt => hlt.trans_le (h.reqNo _)⟩

theorem Later.result {result : Result} (h : Later w w') (hr : ResultSound w result) :
    ResultSound w' result := by
  refine ⟨hr.1, fun hok => ?_⟩
  obtain ⟨input, t, hinv, ha⟩ := hr.2 hok
  exact ⟨input, t, h.stamped _ hinv, h.answers ha⟩

/-- The attempts of a clerk do not show in its session. -/
theorem session_pending (clerks : Nat → Clerk) (c : Nat) (pending : Option Nat) :
    Clerk.session ∘ Function.update clerks c { clerks c with pending := pending } =
      Clerk.session ∘ clerks := by
  rw [Function.comp_update]
  exact Function.update_eq_self c _

namespace Served

/-- A request's number and name determine the request. -/
theorem request_eq (h : Served w) {args args' : Args} {t t' : Nat} (ha : Asked w args t)
    (ha' : Asked w args' t') (hc : args.clientId = args'.clientId)
    (hr : args.reqNo = args'.reqNo) : args.request = args'.request := by
  rw [Asked, hc, hr] at ha
  exact (h.sessions.single _ _ _ _ _ ha ha').1

theorem reqNo_le (h : Served w) {t : Nat} (ha : Asked w args t) :
    0 < args.reqNo ∧ args.reqNo ≤ (w.clerks args.clientId).reqNo :=
  h.sessions.invoked _ _ _ ha

section Steps
variable {c k : Nat} {call : Call} {group : Group}

theorem setGroup (h : Served w)
    (hgroup : ∀ args, .client args ∈ group.proposals → ∃ t, Asked w args t) :
    Served (w.setGroup g group) where
  sessions := h.sessions
  named := h.named
  proposed := (Function.forall_update_iff w.groups fun _ group =>
    ∀ args, Op.client args ∈ group.proposals → ∃ t, Asked w args t).mpr
      ⟨hgroup, fun g' _ => h.proposed g'⟩
  logged := h.logged
  called := h.called
  replied := h.replied
  result := h.result
  pending := h.pending

theorem setReplica (h : Served w) (g : Int) (r : Nat) (rep : Replica) :
    Served (w.setReplica g r rep) :=
  h.setGroup (h.proposed g)

theorem propose (h : Served w) (hop : ∀ args, op = .client args → ∃ t, Asked w args t) :
    Served (w.propose g op) := by
  refine h.setGroup fun args hmem => ?_
  rcases List.mem_append.mp hmem with hold | hnew
  · exact h.proposed g args hold
  · exact hop args (List.mem_singleton.mp hnew).symm

theorem advance (h : Served w) (hcall : w.calls[k]? = some call) {progress : Progress}
    (hreply : ∀ reply, progress = .replied reply → ReplySound w call.args reply) :
    Served (w.advance k call progress) where
  sessions := h.sessions
  named := h.named
  proposed := h.proposed
  logged := h.logged
  called call' hmem := by
    rcases List.mem_or_eq_of_mem_set hmem with hold | rfl
    · exact h.called call' hold
    · exact h.called call (List.mem_of_getElem? hcall)
  replied call' hmem reply hr := by
    rcases List.mem_or_eq_of_mem_set hmem with hold | rfl
    · exact h.replied call' hold reply hr
    · exact hreply reply hr
  result := h.result
  pending c k' hk := by
    obtain ⟨call', input, hcall', hreq, hargs⟩ := h.pending c k' hk
    show ∃ call'' input, (w.calls.set k { call with progress := progress })[k']? = some call'' ∧ _
    rw [List.getElem?_set]
    split
    · rename_i hkk
      subst hkk
      cases hcall.symm.trans hcall'
      refine ⟨_, input, if_pos (List.getElem?_eq_some_iff.mp hcall).1, hreq, hargs⟩
    · exact ⟨call', input, hcall', hreq, hargs⟩

theorem setClerk_pending (h : Served w) {pending : Option Nat}
    (hpending : ∀ k, pending = some k → ∃ (call : Call) (input : Request),
      w.calls[k]? = some call ∧ (w.clerks c).request = some input ∧
        call.args = Clerk.args c (w.clerks c).reqNo input) :
    Served (w.setClerk c { w.clerks c with pending := pending }) := by
  have hreqNo : ∀ c', (Function.update w.clerks c { w.clerks c with pending := pending } c').reqNo =
      (w.clerks c').reqNo := fun c' =>
    congrArg (fun f : Nat → Session Request => (f c').number) (session_pending w.clerks c pending)
  have hlater : Later w (w.setClerk c { w.clerks c with pending := pending }) :=
    ⟨⟨[], (List.append_nil _).symm⟩, fun _ he => he, fun c' => (hreqNo c').ge⟩
  refine ⟨?_, h.named, h.proposed, h.logged, h.called,
    fun call hcall reply hr => hlater.reply (h.replied call hcall reply hr),
    fun e he => hlater.result (h.result e he), ?_⟩
  · show Sessions _ _ (Clerk.session ∘ Function.update w.clerks c _) _ _
    rw [session_pending]
    exact h.sessions
  · refine (Function.forall_update_iff w.clerks fun c ck => ∀ k, ck.pending = some k →
      ∃ (call : Call) (input : Request), w.calls[k]? = some call ∧ ck.request = some input ∧
        call.args = Clerk.args c ck.reqNo input).mpr ⟨hpending, fun c' _ => h.pending c'⟩

/-- A clerk begins a request or ends one, and its caller sees that. -/
theorem observed (h : Served w) (seq : Nat) {ck : Clerk} {e : Event}
    (hreqNo : (w.clerks c).reqNo ≤ ck.reqNo) (hpending : ck.pending = none)
    (hsessions : Sessions (fun t => Answers (w.commits.take t))
      (w.stamped ++ [(e.history, w.commits.length)])
      (Function.update (Clerk.session ∘ w.clerks) c ck.session) seq w.commits.length)
    (hnamed : ∀ id request value, e = .respond id request value →
      ∃ t, (.invoke id request, t) ∈ w.trace) :
    Served (({ w with seq := seq }.setClerk c ck).observe e) := by
  have hstamped : (({ w with seq := seq }.setClerk c ck).observe e).stamped =
      w.stamped ++ [(e.history, w.commits.length)] := World.stamped_observe _ _
  have hlater : Later w (({ w with seq := seq }.setClerk c ck).observe e) := by
    refine ⟨⟨[], (List.append_nil _).symm⟩, fun e' he => ?_, ?_⟩
    · rw [hstamped]
      exact List.mem_append_left _ he
    · exact (Function.forall_update_iff w.clerks fun c' ck => (w.clerks c').reqNo ≤ ck.reqNo).mpr
        ⟨hreqNo, fun _ _ => Nat.le_refl _⟩
  constructor
  case sessions =>
    rw [hstamped]
    show Sessions _ _ (Clerk.session ∘ Function.update w.clerks c ck) _ _
    rwa [Function.comp_update]
  case named =>
    intro id request value t hm
    rcases List.mem_append.mp hm with hold | hnew
    · obtain ⟨t₀, hinv⟩ := h.named id request value t hold
      exact ⟨t₀, List.mem_append_left _ hinv⟩
    · obtain ⟨t₀, hinv⟩ := hnamed id request value
        (congrArg Prod.fst (List.mem_singleton.mp hnew)).symm
      exact ⟨t₀, List.mem_append_left _ hinv⟩
  case proposed =>
    intro g args hm
    exact (h.proposed g args hm).imp fun _ => hlater.asked
  case logged =>
    intro i g args hi
    exact (h.logged i g args hi).imp fun _ ht => ⟨ht.1, hlater.asked ht.2⟩
  case called =>
    intro call hcall
    exact (h.called call hcall).imp fun _ => hlater.asked
  case replied => exact fun call hcall reply hr => hlater.reply (h.replied call hcall reply hr)
  case result => exact fun e he => hlater.result (h.result e he)
  case pending =>
    refine (Function.forall_update_iff w.clerks fun c ck => ∀ k, ck.pending = some k →
      ∃ (call : Call) (input : Request), w.calls[k]? = some call ∧ ck.request = some input ∧
        call.args = Clerk.args c ck.reqNo input).mpr ⟨fun k hk => ?_, fun c' _ => h.pending c'⟩
    rw [hpending] at hk
    cases hk

theorem invoke (h : Served w) (c : Nat) (input : Request) : Served (w.invoke c input) := by
  refine h.observed (w.seq + 1) ((h.sessions.counted c).trans (Nat.le_succ _)) rfl
    (h.sessions.begin c input) fun id request value heq => ?_
  cases heq

theorem attempt (h : Served w) {input : Request} (hbusy : (w.clerks c).request = some input)
    (g : Int) (r : Nat) : Served (w.attempt c input g r) := by
  obtain ⟨hc, hr, hreq⟩ := clerk_args c (w.clerks c).reqNo input
  -- the call is there first, then the clerk waits for it
  have hcalls : Served { w with calls := w.calls ++
      [⟨g, r, Clerk.args c (w.clerks c).reqNo input, .sent⟩] } := by
    refine ⟨h.sessions, h.named, h.proposed, h.logged, fun call hmem => ?_,
      fun call hmem reply hr => ?_, h.result, fun c' k hk => ?_⟩
    · rcases List.mem_append.mp hmem with hold | hnew
      · exact h.called call hold
      · rw [List.mem_singleton.mp hnew]
        obtain ⟨t, ht⟩ := h.sessions.busy c input hbusy
        refine ⟨t, ?_⟩
        rw [Asked, hc, hr, hreq]
        exact ht
    · rcases List.mem_append.mp hmem with hold | hnew
      · exact h.replied call hold reply hr
      · rw [List.mem_singleton.mp hnew] at hr
        cases hr
    · obtain ⟨call, input', hcall, hrest⟩ := h.pending c' k hk
      refine ⟨call, input', ?_, hrest⟩
      rw [List.getElem?_append_left (List.getElem?_eq_some_iff.mp hcall).1]
      exact hcall
  refine hcalls.setClerk_pending fun k hk => ?_
  cases hk
  exact ⟨_, input, List.getElem?_concat_length, hbusy, rfl⟩

/-- A clerk takes the answer of its attempt. -/
theorem finish (h : Served w) {input : Request} {reply : Reply}
    (hbusy : (w.clerks c).request = some input) (hpending : (w.clerks c).pending = some k)
    (hcall : w.calls[k]? = some call) (hreplied : call.progress = .replied reply)
    (herr : reply.err = .ok ∨ reply.err = .noKey) : Served (w.finish c input reply) := by
  obtain ⟨call', input', hcall', hreq, hargs⟩ := h.pending c k hpending
  cases hcall.symm.trans hcall'
  cases hbusy.symm.trans hreq
  obtain ⟨hc, hr, hinput⟩ := clerk_args c (w.clerks c).reqNo input
  obtain ⟨hno, hok⟩ := h.replied call (List.mem_of_getElem? hcall) reply hreplied
  -- the clerk has not gone on, so the reply is an answer
  have hans : Answers w.commits (c, (w.clerks c).reqNo) input reply.value := by
    have := hok (herr.resolve_right hno)
    rw [hargs, hc, hr, hinput] at this
    exact this.resolve_right (Nat.lt_irrefl _)
  refine h.observed w.seq (Nat.le_refl _) rfl (h.sessions.done hbusy ?_) fun id request value heq => ?_
  · rwa [List.take_length]
  · cases heq
    obtain ⟨t₀, hinv⟩ := h.sessions.busy c input hbusy
    obtain ⟨⟨e, t⟩, hmem, heq⟩ := List.mem_map.mp hinv
    cases e with
    | invoke id' input' =>
      cases heq
      exact ⟨t, hmem⟩
    | respond id' input' value' => cases heq

theorem restart (h : Served w) (g : Int) (r : Nat) : Served (w.restart g r) := by
  have hset := h.setReplica g r
    { skv := startServer g (w.replica g r).persisted, persisted := (w.replica g r).persisted }
  have hargs : ∀ call : Call,
      (if call.gid = g ∧ call.replica = r ∧ call.progress = .waiting then
        { call with progress := .gone } else call).args = call.args := by
    intro call
    split <;> rfl
  refine ⟨hset.sessions, hset.named, hset.proposed, hset.logged, fun call hmem => ?_,
    fun call hmem reply hr => ?_, hset.result, fun c k hk => ?_⟩
  · obtain ⟨call', hmem', rfl⟩ := List.mem_map.mp hmem
    rw [hargs]
    exact h.called call' hmem'
  · obtain ⟨call', hmem', rfl⟩ := List.mem_map.mp hmem
    rw [hargs]
    split at hr
    · cases hr
    · exact h.replied call' hmem' reply hr
  · obtain ⟨call, input, hcall, hreq, hcargs⟩ := h.pending c k hk
    refine ⟨_, input, ?_, hreq, (hargs call).trans hcargs⟩
    exact (List.getElem?_map).trans (by rw [hcall]; rfl)

theorem commit (h : Served w) {j : Nat} (hop : (w.groups g).proposals[j]? = some op) :
    Served (w.commit g j op) := by
  have hlater : Later w (w.commit g j op) := ⟨⟨[(g, op)], rfl⟩, fun _ he => he, fun _ => Nat.le_refl _⟩
  have hgroup : Served (w.setGroup g
      { w.groups g with proposals := (w.groups g).proposals.eraseIdx j }) :=
    h.setGroup fun args hmem => h.proposed g args (List.mem_of_mem_eraseIdx hmem)
  refine ⟨?_, h.named, hgroup.proposed, fun i g' args hi => ?_, h.called,
    fun call hcall reply hr => hlater.reply (h.replied call hcall reply hr),
    fun e he => hlater.result (h.result e he), h.pending⟩
  · refine h.sessions.later ?_ fun t ht id input out ha => ?_
    · show w.commits.length ≤ (w.commits ++ [(g, op)]).length
      simp
    · show Answers ((w.commits ++ [(g, op)]).take t) id input out
      rwa [List.take_append_of_le_length ht]
  · have hi : (w.commits ++ [(g, op)])[i]? = some (g', .client args) := hi
    rcases Nat.lt_trichotomy i w.commits.length with hlt | rfl | hgt
    · rw [List.getElem?_append_left hlt] at hi
      exact h.logged i g' args hi
    · rw [List.getElem?_concat_length, Option.some.injEq] at hi
      cases hi
      obtain ⟨t, ht⟩ := h.proposed g args (List.mem_of_getElem? hop)
      exact ⟨t, h.sessions.stamped _ ht, ht⟩
    · rw [List.getElem?_eq_none (by simpa using Nat.succ_le_of_lt hgt)] at hi
      cases hi

/-- A handler passes on a result that is for its call. -/
theorem receive (h : Served w) {result : Result} (hcall : w.calls[k]? = some call)
    (hresult : (k, result) ∈ w.results) :
    Served (w.answer k call (received call.args result)) := by
  obtain ⟨t, hasked⟩ := h.called call (List.mem_of_getElem? hcall)
  obtain ⟨hno, hok⟩ := h.result _ hresult
  refine (h.setReplica _ _ _).advance hcall fun reply heq => ?_
  cases heq
  show ReplySound w call.args (received call.args result)
  unfold received
  split
  swap
  · exact ⟨by decide, nofun⟩
  · rename_i hids
    -- the channel's result is for the same request
    have hans : result.err = .ok →
        Answers w.commits (call.args.clientId, call.args.reqNo) call.args.request result.value := by
      intro herr
      obtain ⟨input, t', hinv, hans⟩ := hok herr
      dsimp only at hinv hans
      rw [hids.1, hids.2] at hinv hans
      rwa [(h.sessions.single _ _ _ _ _ hinv hasked).1] at hans
    cases hargs : call.args with
    | get args =>
      rw [hargs] at hans
      exact ⟨hno, fun herr => .inl (hans herr)⟩
    | putAppend args =>
      rw [hargs] at hans
      refine ⟨hno, fun herr => .inl ?_⟩
      obtain ⟨q, hq, hexec, hvalue⟩ := hans herr
      exact ⟨q, hq, hexec, (step_putAppend _ _ _ _).symm⟩

section Replica
variable (h : Served w) (hsound : Sound H w) (hfull : H.Full)
include h hsound hfull

/-- What a replica sends on for a command it applies is an answer to it. -/
theorem apply {r : Nat} (hop : (logOf g w.commits)[(w.skv g r).commitedId]? = some op) :
    Served (w.apply g r op) := by
  have hset := h.setReplica g r { w.replica g r with skv := (w.skv g r).next op }
  refine ⟨hset.sessions, hset.named, hset.proposed, hset.logged, hset.called, hset.replied,
    fun e he => ?_, hset.pending⟩
  rcases List.mem_append.mp he with hold | hnew
  · exact h.result e hold
  · obtain ⟨result, hres, hchan⟩ := List.mem_filterMap.mp hnew
    obtain ⟨chan, -, rfl⟩ := Option.map_eq_some_iff.mp hchan
    rw [Option.mem_toList] at hres
    cases op with
    | config | shards => cases hres
    | client args =>
      obtain ⟨hisNew, heq⟩ := Option.ite_none_right_eq_some.mp hres
      cases heq
      obtain ⟨i, hi, hagrees⟩ := (hsound.replica g r).skv.exists_entry hop
      refine ⟨opErr_ne_noKey _ _, fun hok => ?_⟩
      have hok : (w.skv g r).opErr args.shardId = .ok := hok
      have hagrees : Agrees (groupAt (w.commits.take i) g) (w.skv g r) := hagrees
      have hexec : Executed w.commits i g args := by
        refine ⟨hi, ?_, ?_⟩
        · rw [← hagrees.clientInfo]
          exact hisNew
        · rw [← hagrees.opErr_eq, hok]
      obtain ⟨t, -, hasked⟩ := h.logged i g args hi
      refine ⟨args.request, t, hasked, ?_⟩
      have hans := hsound.lawful.answers_of_executed hfull hexec
      rw [← hagrees.shardKVMap] at hans
      show Answers w.commits _ _ (if (w.skv g r).opErr args.shardId = .ok then _ else _)
      rwa [if_pos hok]

/-- What a handler answers at once. -/
theorem serve_sound {r : Nat} {isLeader : Bool} {reply : Reply}
    (hreply : (w.skv g r).serve isLeader args = .reply reply) : ReplySound w args reply := by
  obtain ⟨hno, hok⟩ := serve_reply hreply
  refine ⟨hno, fun herr => ?_⟩
  obtain ⟨hdone, hvalue, hshard⟩ := hok herr
  obtain ⟨q, hq, hagrees⟩ := (hsound.replica g r).skv
  have hagrees : Agrees (groupAt (w.commits.take q) g) (w.skv g r) := hagrees
  have hlaw := hsound.lawful.take q
  obtain ⟨hrecorded, -⟩ := hlaw.recorded g
  rw [hagrees.clientInfo] at hdone
  rcases ClientInfo.isNew_eq_false.mp hdone with hlt | ⟨heq, hresok⟩
  · -- a later request of the clerk is in some log
    right
    rcases hrecorded.seen args.clientId with hzero | ⟨i, g', args', hi, hc, hr⟩
    · omega
    · have hi : w.commits[i]? = some (g', .client args') := by
        have hiq : i < q := by
          have := (List.getElem?_eq_some_iff.mp hi).1
          rw [List.length_take] at this
          omega
        rwa [List.getElem?_take_of_lt hiq] at hi
      obtain ⟨t', -, hasked'⟩ := h.logged i g' args' hi
      have hle := (h.reqNo_le hasked').2
      rw [hc, hr] at hle
      exact hlt.trans_le hle
  · left
    obtain ⟨i, g', args', hexec, hc, hr⟩ := hrecorded.done args.clientId hresok
    obtain ⟨hexec, hi⟩ := hexec.of_take
    refine ⟨q, hq, ⟨i, hi, g', args', hexec, hc, hr.trans heq.symm⟩, ?_⟩
    rw [hvalue, hagrees.shardKVMap]
    refine hlaw.readValue_eq hfull fun args' heq => ?_
    rw [← hagrees.shards]
    exact hshard args' heq

theorem enter (hcall : w.calls[k]? = some call) (isLeader started : Bool) :
    Served (w.enter k call isLeader started) := by
  obtain ⟨t, hasked⟩ := h.called call (List.mem_of_getElem? hcall)
  unfold World.enter
  split
  · rename_i reply hreply
    refine h.advance hcall fun reply' heq => ?_
    cases heq
    exact h.serve_sound hsound hfull hreply
  · rename_i op hop
    split
    · cases serve_start hop
      refine ((h.propose fun args hargs => ?_).setReplica _ _ _).advance hcall nofun
      cases hargs
      exact ⟨t, hasked⟩
    · refine h.advance hcall fun reply' heq => ?_
      cases heq
      exact ⟨by decide, nofun⟩

/-- **The invariant is kept by every step.** -/
theorem stepped (hstep : Stepped H w w') : Served w' := by
  cases hstep with
  | invoke => exact h.invoke _ _
  | attempt hbusy => exact h.attempt hbusy _ _
  | enter hcall => exact h.enter hsound hfull hcall _ _
  | receive hcall _ hresult => exact h.receive hcall hresult
  | timeout hcall =>
    refine (h.setReplica _ _ _).advance hcall fun reply heq => ?_
    cases heq
    exact ⟨by decide, nofun⟩
  | fail => exact h.setClerk_pending nofun
  | finish hbusy hpending hcall hreplied herr => exact h.finish hbusy hpending hcall hreplied herr
  | @commit g r j op hg hlast hop =>
    exact (h.commit hop).apply (hsound.commit hg hop) hfull (commit_entry hlast)
  | apply hop => exact h.apply hsound hfull hop
  | updateConfig => exact h.propose nofun
  | @pull g r =>
    unfold World.pull
    split
    · rename_i op hop
      refine h.propose fun args heq => ?_
      subst heq
      unfold pullShards at hop
      split at hop <;> cases hop
    · exact ⟨h.sessions, h.named, h.proposed, h.logged, h.called, h.replied, h.result, h.pending⟩
  | shardDock _ hdock =>
    refine h.propose fun args heq => ?_
    subst heq
    unfold ShardKV.shardDock at hdock
    split at hdock
    · cases hdock
    · obtain ⟨-, heq⟩ := Option.ite_none_left_eq_some.mp hdock
      cases heq
  | sayHello => exact h.setReplica _ _ _
  | hello => exact h.setReplica _ _ _
  | clean => exact h.setReplica _ _ _
  | snapshot => exact h.setGroup (h.proposed _)
  | install => exact h.setReplica _ _ _
  | restart => exact h.restart _ _

end Replica

end Steps

end Served

theorem served_of_reach (hfull : H.Full) {ok : World → Action → Prop}
    (h : (service H).Reach ok w) : Served w :=
  h.invariant Served.initial fun _ _ _ hreach hserved _ hstep =>
    hserved.stepped (sound_of_reach hreach) hfull (step_cases hstep)

/-! ### The order of the calls -/

section Order
variable (h : Served w) (hsound : Sound H w) (hfull : H.Full)
include h hsound hfull

/-- An operation that is executed has been asked for, and it is executed once. -/
theorem Served.executed_eq {i j : Nat} {g g' : Int} {args args' : Args}
    (hi : Executed w.commits i g args) (hj : Executed w.commits j g' args')
    (hc : args.clientId = args'.clientId) (hr : args.reqNo = args'.reqNo) :
    i = j ∧ args.request = args'.request := by
  obtain ⟨t, -, ht⟩ := h.logged i g args hi.entry
  obtain ⟨t', -, ht'⟩ := h.logged j g' args' hj.entry
  have hreq := h.request_eq ht ht' hc hr
  have hkey : args.key = args'.key := by rw [← request_key, hreq, request_key]
  have hshard : ∀ {i g args}, Executed w.commits i g args → args.shardId = key2shard args.key := by
    intro i g args hexec
    cases (hsound.lawful.entry hexec.entry).2 with
    | client hargs => exact hargs
  refine ⟨hsound.lawful.executed_unique hfull hi hj hc hr ?_ (h.reqNo_le ht).1, hreq⟩
  rw [hshard hi, hshard hj, hkey]

theorem Served.settled {t t₀ : Nat} (hinv : (.invoke id input, t₀) ∈ w.stamped)
    (hans : Answers (w.commits.take t) id input value) :
    Sessions.Settled mapObject (slots w.commits) w.stamped t id input value := by
  obtain ⟨q, hq, ⟨i, hi, g, args, hexec, hc, hr⟩, hvalue⟩ := hans
  obtain ⟨hexec, -⟩ := hexec.of_take
  have hqt : q ≤ t := hq.trans (List.length_take_le _ _)
  rw [List.take_take, Nat.min_eq_left hqt] at hvalue
  obtain ⟨t₁, ht₁, hasked⟩ := h.logged i g args hexec.entry
  have hid : (args.clientId, args.reqNo) = id := Prod.ext hc hr
  rw [Asked, hid] at hasked
  obtain ⟨rfl, rfl⟩ := h.sessions.single _ _ _ _ _ hinv hasked
  cases args with
  | putAppend args =>
    refine .update i (hi.trans_le hqt) ?_
    have hout : value = "" := hvalue.trans (step_putAppend _ _ _ _)
    rw [slots_getElem?, hexec.entry, Option.map_some, slot, if_pos hexec.executes, ← hid, hout]
    rfl
  | get args =>
    refine .read q hqt ?_ (fun input' t' ht' => ?_) fun u hu heq => ?_
    · rw [← slots_take]
      show (_, _) = _
      rw [hvalue]
      rfl
    · have := (h.sessions.single _ _ _ _ _ hinv ht').2
      omega
    -- the slots hold updates only
    · obtain ⟨j, hj⟩ := List.mem_iff_getElem?.mp (List.reduceOption_mem_iff.mp hu)
      obtain ⟨g', args', hexec', rfl, args'', rfl⟩ := slot_executed hj
      have hid' : ((Args.putAppend args'').clientId, (Args.putAppend args'').reqNo) = id := heq
      rw [← hid] at hid'
      have hreq := (h.executed_eq hsound hfull hexec' hexec (congrArg Prod.fst hid')
        (congrArg Prod.snd hid')).2
      cases hreq

/-- Some order of all calls explains what the callers have seen, and ends in the map that the
executed operations leave. -/
theorem Served.linearization : ∃ S, Linearizes mapObject w.history S ∧
    mapObject.run mapObject.init S = values w.commits := by
  have hasked : ∀ (i : Nat) u, (slots w.commits)[i]? = some (some u) →
      ∃ t ≤ i, (.invoke u.id u.input, t) ∈ w.stamped := by
    intro i u hi
    obtain ⟨g, args, hexec, rfl, -⟩ := slot_executed hi
    exact h.logged i g args hexec.entry
  have hunique : ∀ (i j : Nat) u v, (slots w.commits)[i]? = some (some u) →
      (slots w.commits)[j]? = some (some v) → u.id = v.id → i = j := by
    intro i j u v hi hj heq
    obtain ⟨g, args, hexec, rfl, -⟩ := slot_executed hi
    obtain ⟨g', args', hexec', rfl, -⟩ := slot_executed hj
    exact (h.executed_eq hsound hfull hexec hexec' (congrArg Prod.fst heq)
      (congrArg Prod.snd heq)).1
  obtain ⟨S, hlin, hrun, -⟩ := h.sessions.linearization (slots_length w.commits) hasked hunique
    (legal_slots w.commits) fun id input value t t₀ hinv _ hans =>
      h.settled hsound hfull hinv hans
  refine ⟨S, ?_, hrun⟩
  rwa [World.stamped, List.map_map] at hlin

/-- A completed update was executed, at one entry of all logs. -/
theorem Served.completed_once {t : Nat} (hresp : (.respond id input value, t) ∈ w.trace) :
    ∃! i, ∃ g args, Executed w.commits i g args ∧ args.clientId = id.1 ∧ args.reqNo = id.2 ∧
      args.request = input := by
  have hmem : (.respond id value, t) ∈ w.stamped := List.mem_map_of_mem hresp
  obtain ⟨input', t₀, hinv, q, -, ⟨i, -, g, args, hexec, hc, hr⟩, -⟩ :=
    h.sessions.responded _ _ _ hmem
  obtain ⟨hexec, -⟩ := hexec.of_take
  refine ⟨i, ⟨g, args, hexec, hc, hr, ?_⟩, ?_⟩
  · obtain ⟨t₁, hnamed⟩ := h.named _ _ _ _ hresp
    have hnamed : (.invoke id input, t₁) ∈ w.stamped := List.mem_map_of_mem hnamed
    obtain ⟨t₂, -, hasked⟩ := h.logged i g args hexec.entry
    rw [Asked, show (args.clientId, args.reqNo) = id from Prod.ext hc hr] at hasked
    exact (h.sessions.single _ _ _ _ _ hasked hnamed).1
  · rintro j ⟨g', args', hexec', hc', hr', -⟩
    exact (h.executed_eq hsound hfull hexec' hexec (hc'.trans hc.symm) (hr'.trans hr.symm)).1

end Order

/-! ### One key -/

/-- The value of one key. -/
def register : Object String Request String where
  init := ""
  step old
    | .get _ => (old, old)
    | .putAppend .put _ value => (value, "")
    | .putAppend .append _ value => (old ++ value, "")

theorem projects_register (key : String) :
    Projects mapObject register (· key) (fun input => input.key = key) where
  init := rfl
  step kvMap input hkey := by
    obtain rfl : input.key = key := of_decide_eq_true hkey
    cases input with
    | get key => rfl
    | putAppend kind key value => cases kind <;> simp [mapObject, register, Request.key]
  skip kvMap input hkey := step_of_ne (of_decide_eq_false hkey)

/-- The calls of a key are the calls whose request names it. -/
theorem Served.keyHistory_eq (h : Served w) (key : String) : ∃ sel : CallId → Bool,
    w.keyHistory key = w.history.filter (fun e => sel e.id) ∧
      ∀ id input, .invoke id input ∈ w.history → sel id = decide (input.key = key) := by
  classical
  have hof : ∀ {id input}, .invoke id input ∈ w.history → ∃ t, (.invoke id input, t) ∈ w.stamped := by
    intro id input hm
    obtain ⟨⟨e, t⟩, hmem, heq⟩ := List.mem_map.mp hm
    exact ⟨t, List.mem_map.mpr ⟨(e, t), hmem, Prod.ext heq rfl⟩⟩
  have hsel : ∀ id input, .invoke id input ∈ w.history →
      decide (∃ input', .invoke id input' ∈ w.history ∧ input'.key = key) =
        decide (input.key = key) := by
    intro id input hm
    refine decide_eq_decide.mpr ⟨?_, fun hkey => ⟨input, hm, hkey⟩⟩
    rintro ⟨input', hm', hkey⟩
    obtain ⟨t, ht⟩ := hof hm
    obtain ⟨t', ht'⟩ := hof hm'
    rwa [(h.sessions.single _ _ _ _ _ ht ht').1]
  refine ⟨fun id => decide (∃ input, .invoke id input ∈ w.history ∧ input.key = key), ?_, hsel⟩
  rw [World.keyHistory, World.history, List.filter_map]
  refine congrArg _ (List.filter_congr fun e he => ?_)
  obtain ⟨e, t⟩ := e
  cases e with
  | invoke id input => exact (hsel id input (List.mem_map_of_mem he)).symm
  | respond id input value =>
    obtain ⟨t₀, hinv⟩ := h.named _ _ _ _ he
    exact (hsel id input (List.mem_map_of_mem hinv)).symm

/-- **Linearizability across migration.** In every run over a history that gives out all shards:
the calls of every key are linearizable, every completed call was executed exactly once over all
groups together, and one order of all calls explains the whole history and ends, for every key,
with the value in the group that has its shard. -/
theorem linearizable_migration (hfull : H.Full) (hw : (service H).Reach System.anyStep w) :
    (∀ key, Linearizable register (w.keyHistory key)) ∧
    (∀ id input value t, (.respond id input value, t) ∈ w.trace →
      ∃! i, ∃ g args, Executed w.commits i g args ∧ args.clientId = id.1 ∧ args.reqNo = id.2 ∧
        args.request = input) ∧
    ∃ S, Linearizes mapObject w.history S ∧
      ∀ g key, (groupAt w.commits g).shards (key2shard key) = true →
        ((groupAt w.commits g).shardKVMap key).getD "" = mapObject.run mapObject.init S key := by
  have hsound := sound_of_reach hw
  have h := served_of_reach hfull hw
  obtain ⟨S, hlin, hrun⟩ := h.linearization hsound hfull
  refine ⟨fun key => ?_, fun id input value t hresp => h.completed_once hsound hfull hresp, S, hlin,
    fun g key hs => ?_⟩
  · obtain ⟨sel, heq, hsel⟩ := h.keyHistory_eq key
    rw [heq]
    exact ⟨_, hlin.project (projects_register key) fun op hop =>
      hsel _ _ (hlin.invoked op hop)⟩
  · rw [hrun]
    exact (hsound.lawful.kept hfull (.held hs)).value key rfl

/-- An append is executed by group 1 while its clerk gives up waiting. The second copy comes after
the shards have left, the third is too early in group 2 and fails there, and the fourth attempt
finds the shard with the table that came with it. -/
def retryMoved : List Action :=
  [.updateConfig 1 0 true, .commit 1 0 0, .checkMissShards 1 0 true, .commit 1 0 0,
   .invoke 7 (.putAppend .append "k" "v"), .attempt 7 1 0, .enter 0 true true, .fail 7,
   .attempt 7 1 0, .enter 1 true true, .commit 1 0 0, .fail 7,
   .updateConfig 1 0 true, .commit 1 0 1, .commit 1 0 0,
   .updateConfig 2 0 true, .commit 2 0 0, .updateConfig 2 0 true, .commit 2 0 0,
   .attempt 7 2 0, .enter 2 true true, .commit 2 0 0, .receive 2 1, .fail 7,
   .checkMissShards 2 0 true, .shardDock 0 0, .commit 2 0 0,
   .attempt 7 2 0, .enter 3 true true, .finish 7,
   .invoke 8 (.get "k"), .attempt 8 2 0, .enter 4 true true, .commit 2 0 0, .receive 4 2, .finish 8]

theorem retryMoved_runs : (((service oneThenTwo).run (service oneThenTwo).init retryMoved).map
    fun w => decide (w.trace.map (·.1) =
      [.invoke (7, 1) (.putAppend .append "k" "v"),
        .respond (7, 1) (.putAppend .append "k" "v") "",
        .invoke (8, 2) (.get "k"), .respond (8, 2) (.get "k") "v"])) = some true := by
  decide +kernel

/-- The append takes effect once, and the read sees it. -/
theorem linearizable_migration_retryMoved :
    ∃ w, (service oneThenTwo).Reach System.anyStep w ∧
      .respond (8, 2) "v" ∈ w.history ∧ Linearizable register (w.keyHistory "k") ∧
      ∃! i, ∃ g args, Executed w.commits i g args ∧ args.clientId = 7 ∧ args.reqNo = 1 ∧
        args.request = .putAppend .append "k" "v" := by
  obtain ⟨w, hrun, hw⟩ := Option.map_eq_some_iff.mp retryMoved_runs
  have htrace := of_decide_eq_true hw
  have hreach := System.reach_run .init (fun _ _ => trivial) _ hrun
  obtain ⟨hkeys, honce, -⟩ := linearizable_migration oneThenTwo_full hreach
  have hread : .respond (8, 2) (.get "k") "v" ∈ w.trace.map (·.1) := by
    rw [htrace]
    decide
  have happend : .respond (7, 1) (.putAppend .append "k" "v") "" ∈ w.trace.map (·.1) := by
    rw [htrace]
    decide
  obtain ⟨e, he, heq⟩ := List.mem_map.mp hread
  obtain ⟨⟨_, t⟩, ht, rfl⟩ := List.mem_map.mp happend
  refine ⟨w, hreach, ?_, hkeys "k", honce _ _ _ t ht⟩
  have hmem : e.1.history ∈ w.history := List.mem_map_of_mem he
  rwa [heq] at hmem

end RaftLabs.ShardKV
