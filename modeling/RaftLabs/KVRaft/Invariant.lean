import RaftLabs.KVRaft.Replay

/-! The invariant of the key/value service.

Servers and snapshots are replays of prefixes of the log. Commands come from clerks, and none
is in the log before its call was invoked. A client has one call outstanding: when a call is
invoked, the table of the whole log stands exactly at the call before it. A successful reply
is what some prefix of the log answers that has executed the call. -/
namespace RaftLabs.KVRaft
open Lib

variable {n : Nat}

/-! ### Invariants -/

abbrev Trace := List (HistoryEvent CallId Request String × Nat)

/-- The state is what a prefix of the log leaves. -/
def IsReplay (log : List Op) (kv : KVServer) : Prop := ∃ p, p <+: log ∧ kv = replay p

/-- Some prefix of the log has executed the call and answers the request with `value`. -/
def Answers (log : List Op) (id : CallId) (request : Request) (value : String) : Prop :=
  ∃ q ≤ log.length, id.2 ≤ (replay (log.take q)).completed id.1 ∧
    value = (replay (log.take q)).answer request

/-- A clerk was asked for what the command does, at a moment `t`. -/
def Asked (trace : Trace) (args : Args) (t : Nat) : Prop :=
  (.invoke (args.clientId, args.reqNo) args.request, t) ∈ trace

/-- The servers and their snapshots. -/
structure Replicas (log : List Op) (servers : Fin n → KVServer)
    (persisted : Fin n → Option KVServer) (snapshots : List KVServer) : Prop where
  server : ∀ s, IsReplay log (servers s)
  saved : ∀ s kv, persisted s = some kv → IsReplay log kv
  snapshot : ∀ kv ∈ snapshots, IsReplay log kv

/-- Commands and remote calls come from the clerks, and replies from the log. -/
structure Requests (log : List Op) (trace : Trace) (proposals : List Op)
    (calls : List (Call n)) : Prop where
  proposed : ∀ op ∈ proposals, op = op.arg.op ∧ ∃ t, Asked trace op.arg t
  logged : ∀ (i : Nat) op, log[i]? = some op → op = op.arg.op ∧ ∃ t ≤ i, Asked trace op.arg t
  call : ∀ call ∈ calls, ∃ t, Asked trace call.args t
  replied : ∀ call ∈ calls, ∀ reply, call.progress = .replied reply → reply.success = true →
    Answers log (call.args.clientId, call.args.reqNo) call.args.request reply.value

/-- What the callers of clerk `c` have seen, against the clerk. -/
structure ClerkRecords (log : List Op) (trace : Trace) (c : Nat) (ck : Clerk n) : Prop where
  invoked : ∀ r request t, (.invoke (c, r) request, t) ∈ trace → r ≤ ck.reqNo
  responded : ∀ r value t, (.respond (c, r) value, t) ∈ trace →
    r ≤ ck.reqNo ∧ (ck.request ≠ none → r < ck.reqNo)
  busy : ∀ request, ck.request = some request → ∃ t, (.invoke (c, ck.reqNo) request, t) ∈ trace
  idle : ck.request = none → ck.reqNo ≤ (replay log).completed c

/-- What the clerks' callers have seen, against the log and the clerks. -/
structure Records (log : List Op) (trace : Trace) (clerks : Nat → Clerk n) : Prop where
  stamped : ∀ e ∈ trace, e.2 ≤ log.length
  sorted : trace.Pairwise fun a b => a.2 ≤ b.2
  -- when a call is invoked, the one before it is executed and nothing later is in the log
  invoked : ∀ id request t, (.invoke id request, t) ∈ trace →
    id.2 = (replay (log.take t)).completed id.1 + 1
  single : ∀ id request request' t t', (.invoke id request, t) ∈ trace →
    (.invoke id request', t') ∈ trace → request = request' ∧ t = t'
  responded : ∀ id value t, (.respond id value, t) ∈ trace → ∃ request t₀,
    (.invoke id request, t₀) ∈ trace ∧ Answers (log.take t) id request value
  once : (responses trace).Nodup
  clerk : ∀ c, ClerkRecords log trace c (clerks c)

/-- A clerk waits for a call with its current request. -/
def Pending (calls : List (Call n)) (clerks : Nat → Clerk n) : Prop :=
  ∀ c k, (clerks c).pending = some k → ∃ request call, (clerks c).request = some request ∧
    calls[k]? = some call ∧ call.args = Clerk.args c (clerks c).reqNo request

structure Sound (w : World n) : Prop where
  replicas : Replicas w.log w.servers w.persisted w.snapshots
  requests : Requests w.log w.trace w.proposals w.calls
  records : Records w.log w.trace w.clerks
  pending : Pending w.calls w.clerks

section Log
variable {log log' : List Op}

theorem IsReplay.mono {kv : KVServer} (h : IsReplay log kv) (hl : log <+: log') :
    IsReplay log' kv := by
  obtain ⟨p, hp, hkv⟩ := h
  exact ⟨p, hp.trans hl, hkv⟩

theorem isReplay_empty (log : List Op) : IsReplay log (.startKVServer none) :=
  ⟨[], List.nil_prefix, rfl⟩

/-- Applying the next command. -/
theorem IsReplay.next {kv : KVServer} {op : Op} (h : IsReplay log kv)
    (hop : log[kv.commitedId]? = some op) : IsReplay log (kv.next op) := by
  obtain ⟨p, hp, rfl⟩ := h
  rw [commitedId_replay] at hop
  refine ⟨p ++ [op], ?_, ?_⟩
  · have htake : log.take (p.length + 1) = p ++ [op] := by
      rw [List.take_add_one, hop, ← List.prefix_iff_eq_take.mp hp]
      rfl
    exact htake ▸ List.take_prefix _ _
  · rw [replay, replay, replayFrom_append]
    rfl

/-- A server that has executed a call answers it from a prefix of the log. -/
theorem IsReplay.answers {kv : KVServer} {c r : Nat} (h : IsReplay log kv)
    (hr : r ≤ kv.completed c) (request : Request) :
    Answers log (c, r) request (kv.answer request) := by
  obtain ⟨p, hp, rfl⟩ := h
  refine ⟨p.length, hp.length_le, ?_, ?_⟩ <;> rw [← List.prefix_iff_eq_take.mp hp]
  exact hr

theorem take_of_extends (hl : log <+: log') {q : Nat} (hq : q ≤ log.length) :
    log'.take q = log.take q := by
  obtain ⟨rest, rfl⟩ := hl
  exact List.take_append_of_le_length hq

theorem Answers.mono {id : CallId} {request : Request} {value : String}
    (h : Answers log id request value) (hl : log <+: log') : Answers log' id request value := by
  obtain ⟨q, hq, hr, hv⟩ := h
  rw [← take_of_extends hl hq] at hr hv
  exact ⟨q, hq.trans hl.length_le, hr, hv⟩

/-- A call that has an answer is executed. -/
theorem Answers.completed {id : CallId} {request : Request} {value : String}
    (h : Answers log id request value) : id.2 ≤ (replay log).completed id.1 := by
  obtain ⟨q, _, hr, _⟩ := h
  exact hr.trans (completed_mono (List.take_prefix _ _) _)

end Log

/-! ### Steps -/

section Steps
variable {log log' : List Op} {trace trace' : Trace} {proposals : List Op} {calls : List (Call n)}
variable {servers : Fin n → KVServer} {persisted : Fin n → Option KVServer}
variable {snapshots : List KVServer} {clerks clerks' : Nat → Clerk n}

theorem Replicas.mono (h : Replicas log servers persisted snapshots) (hl : log <+: log') :
    Replicas log' servers persisted snapshots where
  server s := (h.server s).mono hl
  saved s kv hkv := (h.saved s kv hkv).mono hl
  snapshot kv hkv := (h.snapshot kv hkv).mono hl

theorem Replicas.setServer (h : Replicas log servers persisted snapshots) (s : Fin n)
    {kv : KVServer} (hkv : IsReplay log kv) :
    Replicas log (Function.update servers s kv) persisted snapshots where
  server := (Function.forall_update_iff servers fun _ kv => IsReplay log kv).mpr
    ⟨hkv, fun s' _ => h.server s'⟩
  saved := h.saved
  snapshot := h.snapshot

theorem Replicas.save (h : Replicas log servers persisted snapshots) (s : Fin n)
    {kv : KVServer} (hkv : IsReplay log kv) :
    Replicas log servers (Function.update persisted s (some kv)) snapshots where
  server := h.server
  saved := (Function.forall_update_iff persisted
      fun _ data => ∀ kv, data = some kv → IsReplay log kv).mpr
    ⟨fun _ heq => Option.some.inj heq ▸ hkv, fun s' _ => h.saved s'⟩
  snapshot := h.snapshot

theorem Asked.mono {args : Args} {t : Nat} (h : Asked trace args t) (hsub : trace ⊆ trace') :
    Asked trace' args t := hsub h

theorem Requests.observe (h : Requests log trace proposals calls) (hsub : trace ⊆ trace') :
    Requests log trace' proposals calls where
  proposed op hop := by
    obtain ⟨heq, t, ht⟩ := h.proposed op hop
    exact ⟨heq, t, ht.mono hsub⟩
  logged i op hop := by
    obtain ⟨heq, t, hle, ht⟩ := h.logged i op hop
    exact ⟨heq, t, hle, ht.mono hsub⟩
  call c hc := by
    obtain ⟨t, ht⟩ := h.call c hc
    exact ⟨t, ht.mono hsub⟩
  replied := h.replied

/-- A remote call is made, or moves on. -/
theorem Requests.setCalls (h : Requests log trace proposals calls) {calls' : List (Call n)}
    (hcalls : ∀ call ∈ calls', call ∈ calls ∨ ((∃ t, Asked trace call.args t) ∧
      ∀ reply, call.progress = .replied reply → reply.success = true →
        Answers log (call.args.clientId, call.args.reqNo) call.args.request reply.value)) :
    Requests log trace proposals calls' where
  proposed := h.proposed
  logged := h.logged
  call c hc := (hcalls c hc).elim (h.call c) fun hnew => hnew.1
  replied c hc := (hcalls c hc).elim (h.replied c) fun hnew => hnew.2

theorem Requests.advance (h : Requests log trace proposals calls) {k : Nat} {call : Call n}
    (hk : calls[k]? = some call) {progress : Progress}
    (hreply : ∀ reply, progress = .replied reply → reply.success = true →
      Answers log (call.args.clientId, call.args.reqNo) call.args.request reply.value) :
    Requests log trace proposals (calls.set k { call with progress := progress }) := by
  refine h.setCalls fun call' hm => ?_
  rcases List.mem_or_eq_of_mem_set hm with hm | rfl
  · exact .inl hm
  · exact .inr ⟨h.call call (List.mem_of_getElem? hk), hreply⟩

theorem Requests.propose (h : Requests log trace proposals calls) {call : Call n}
    (hcall : call ∈ calls) : Requests log trace (proposals ++ [call.args.op]) calls where
  proposed op hop := by
    rcases List.mem_append.mp hop with hop | hop
    · exact h.proposed op hop
    · rw [List.mem_singleton.mp hop]
      exact ⟨rfl, h.call call hcall⟩
  logged := h.logged
  call := h.call
  replied := h.replied

/-- A proposed command reaches the log. -/
theorem Requests.append (h : Requests log trace proposals calls)
    (hstamped : ∀ e ∈ trace, e.2 ≤ log.length) {op : Op} (hop : op ∈ proposals) (j : Nat) :
    Requests (log ++ [op]) trace (proposals.eraseIdx j) calls where
  proposed op' hop' := h.proposed op' (List.mem_of_mem_eraseIdx hop')
  logged i op' hop' := by
    rcases Nat.lt_or_ge i log.length with hi | hi
    · rw [List.getElem?_append_left hi] at hop'
      exact h.logged i op' hop'
    · rw [List.getElem?_append_right hi] at hop'
      cases List.mem_singleton.mp (List.mem_of_getElem? hop')
      obtain ⟨heq, t, ht⟩ := h.proposed op hop
      exact ⟨heq, t, (hstamped _ ht).trans hi, ht⟩
  call := h.call
  replied c hc reply hreply hsucc :=
    (h.replied c hc reply hreply hsucc).mono (List.prefix_append _ _)

/-- The records do not depend on where a clerk's loop stands. -/
theorem ClerkRecords.setLoop {c : Nat} {ck ck' : Clerk n} (h : ClerkRecords log trace c ck)
    (hreq : ck'.request = ck.request) (hno : ck'.reqNo = ck.reqNo) :
    ClerkRecords log trace c ck' where
  invoked := by
    rw [hno]
    exact h.invoked
  responded := by
    rw [hreq, hno]
    exact h.responded
  busy := by
    rw [hreq, hno]
    exact h.busy
  idle := by
    rw [hreq, hno]
    exact h.idle

/-- A clerk takes no notice of the calls of others. -/
theorem ClerkRecords.other {c : Nat} {ck : Clerk n} (h : ClerkRecords log trace c ck)
    {e : HistoryEvent CallId Request String × Nat}
    (hinv : ∀ r request t, (.invoke (c, r) request, t) ≠ e)
    (hresp : ∀ r value t, (.respond (c, r) value, t) ≠ e) :
    ClerkRecords log (trace ++ [e]) c ck where
  invoked r request t hm := by
    rcases List.mem_append.mp hm with hm | hm
    · exact h.invoked r request t hm
    · exact absurd (List.mem_singleton.mp hm) (hinv r request t)
  responded r value t hm := by
    rcases List.mem_append.mp hm with hm | hm
    · exact h.responded r value t hm
    · exact absurd (List.mem_singleton.mp hm) (hresp r value t)
  busy request hreq := by
    obtain ⟨t, ht⟩ := h.busy request hreq
    exact ⟨t, List.mem_append_left _ ht⟩
  idle := h.idle

theorem ClerkRecords.append {c : Nat} {ck : Clerk n} (h : ClerkRecords log trace c ck)
    (hl : log <+: log') : ClerkRecords log' trace c ck where
  invoked := h.invoked
  responded := h.responded
  busy := h.busy
  idle hreq := (h.idle hreq).trans (completed_mono hl c)

theorem ClerkRecords.begin {c : Nat} {ck : Clerk n} (h : ClerkRecords log trace c ck)
    (request : Request) (t₀ : Nat) : ClerkRecords log
      (trace ++ [(.invoke (c, ck.reqNo + 1) request, t₀)]) c (ck.begin request) where
  invoked r request' t hm := by
    rcases invoke_mem_invoke.mp hm with hm | ⟨⟨⟩, -, -⟩
    · exact (h.invoked r request' t hm).trans (Nat.le_succ _)
    · exact Nat.le_refl _
  responded r value t hm := by
    have hr := (h.responded r value t (respond_mem_invoke.mp hm)).1
    exact ⟨hr.trans (Nat.le_succ _), fun _ => Nat.lt_succ_of_le hr⟩
  busy request' hreq := by
    cases hreq
    exact ⟨t₀, List.mem_append_right _ (List.mem_singleton_self _)⟩
  idle hreq := by cases hreq

theorem ClerkRecords.done {c : Nat} {ck : Clerk n} (h : ClerkRecords log trace c ck)
    (value : String) (t₀ : Nat) (hdone : ck.reqNo ≤ (replay log).completed c) :
    ClerkRecords log (trace ++ [(.respond (c, ck.reqNo) value, t₀)]) c ck.done where
  invoked r request t hm := h.invoked r request t (invoke_mem_respond.mp hm)
  responded r value' t hm := by
    refine ⟨?_, fun hne => absurd rfl hne⟩
    rcases respond_mem_respond.mp hm with hm | ⟨⟨⟩, -, -⟩
    · exact (h.responded r value' t hm).1
    · exact Nat.le_refl _
  busy request hreq := by cases hreq
  idle _ := hdone

theorem Records.setLoop (h : Records log trace clerks) (c : Nat) {ck : Clerk n}
    (hreq : ck.request = (clerks c).request) (hno : ck.reqNo = (clerks c).reqNo) :
    Records log trace (Function.update clerks c ck) :=
  { h with
    clerk := (Function.forall_update_iff clerks _).mpr
      ⟨(h.clerk c).setLoop hreq hno, fun c' _ => h.clerk c'⟩ }

theorem Records.append (h : Records log trace clerks) (hl : log <+: log') :
    Records log' trace clerks where
  stamped e he := (h.stamped e he).trans hl.length_le
  sorted := h.sorted
  invoked id request t hm := by
    rw [take_of_extends hl (h.stamped _ hm)]
    exact h.invoked id request t hm
  single := h.single
  responded id value t hm := by
    rw [take_of_extends hl (h.stamped _ hm)]
    exact h.responded id value t hm
  once := h.once
  clerk c := (h.clerk c).append hl

/-- Nothing of a client that is not invoked yet is executed. -/
theorem Records.completed_le (h : Records log trace clerks)
    (hlogged : ∀ (i : Nat) op, log[i]? = some op →
      op = op.arg.op ∧ ∃ t ≤ i, Asked trace op.arg t) (c : Nat) :
    (replay log).completed c ≤ (clerks c).reqNo := by
  by_contra hgt
  obtain ⟨i, op, hop, hc, _, hr⟩ :=
    exists_completes log {} (Nat.succ_pos (clerks c).reqNo) (Nat.not_le.mp hgt)
  obtain ⟨heq, t, _, ht⟩ := hlogged i op hop
  rw [Asked, show op.arg.clientId = c from (congrArg Op.clientId heq).symm.trans hc,
    show op.arg.reqNo = op.reqNo from (congrArg Op.reqNo heq).symm] at ht
  have := (h.clerk c).invoked _ _ _ ht
  omega

/-- A clerk is called. -/
theorem Records.invoke (h : Records log trace clerks)
    (hle : ∀ c, (replay log).completed c ≤ (clerks c).reqNo) {c : Nat}
    (hidle : (clerks c).request = none) (request : Request) :
    Records log (trace ++ [(.invoke (c, (clerks c).reqNo + 1) request, log.length)])
      (Function.update clerks c ((clerks c).begin request)) where
  stamped := stamped_concat h.stamped _
  sorted := sorted_concat h.sorted h.stamped _
  invoked id request' t hm := by
    rcases invoke_mem_invoke.mp hm with hm | ⟨rfl, rfl, rfl⟩
    · exact h.invoked id request' t hm
    · rw [List.take_length, Nat.le_antisymm (hle c) ((h.clerk c).idle hidle)]
  single id r r' t t' hm hm' := by
    have hnew : ∀ request' t', (.invoke (c, (clerks c).reqNo + 1) request', t') ∉ trace :=
      fun request' t' hm => absurd ((h.clerk c).invoked _ _ _ hm) (Nat.not_succ_le_self _)
    rcases invoke_mem_invoke.mp hm with hold | ⟨rfl, rfl, rfl⟩ <;>
      rcases invoke_mem_invoke.mp hm' with hold' | ⟨heq, rfl, rfl⟩
    · exact h.single id r r' t t' hold hold'
    · exact absurd (heq ▸ hold) (hnew _ _)
    · exact absurd hold' (hnew _ _)
    · exact ⟨rfl, rfl⟩
  responded id value t hm := by
    obtain ⟨r, t₀, hr, hans⟩ := h.responded id value t (respond_mem_invoke.mp hm)
    exact ⟨r, t₀, List.mem_append_left _ hr, hans⟩
  once := responses_concat_invoke h.once
  clerk := by
    refine (Function.forall_update_iff clerks _).mpr
      ⟨(h.clerk c).begin request _, fun c' hc => (h.clerk c').other ?_ nofun⟩
    rintro r request' t ⟨⟩
    exact hc rfl

/-- A clerk's call returns. -/
theorem Records.finish (h : Records log trace clerks) {c : Nat} {request : Request}
    {value : String} (hbusy : (clerks c).request = some request)
    (hans : Answers log (c, (clerks c).reqNo) request value) :
    Records log (trace ++ [(.respond (c, (clerks c).reqNo) value, log.length)])
      (Function.update clerks c (clerks c).done) where
  stamped := stamped_concat h.stamped _
  sorted := sorted_concat h.sorted h.stamped _
  invoked id request' t hm := h.invoked id request' t (invoke_mem_respond.mp hm)
  single id r r' t t' hm hm' :=
    h.single id r r' t t' (invoke_mem_respond.mp hm) (invoke_mem_respond.mp hm')
  responded id value' t hm := by
    rcases respond_mem_respond.mp hm with hm | ⟨rfl, rfl, rfl⟩
    · obtain ⟨r, t₀, hr, hans⟩ := h.responded id value' t hm
      exact ⟨r, t₀, List.mem_append_left _ hr, hans⟩
    · obtain ⟨t₀, ht₀⟩ := (h.clerk c).busy request hbusy
      rw [List.take_length]
      exact ⟨request, t₀, List.mem_append_left _ ht₀, hans⟩
  once := by
    have hcalling : (clerks c).request ≠ none := hbusy ▸ Option.some_ne_none request
    refine responses_concat_respond h.once fun out t hm => ?_
    exact Nat.lt_irrefl _ (((h.clerk c).responded _ _ _ hm).2 hcalling)
  clerk := by
    refine (Function.forall_update_iff clerks _).mpr
      ⟨(h.clerk c).done value _ hans.completed, fun c' hc => (h.clerk c').other nofun ?_⟩
    rintro r value' t ⟨⟩
    exact hc rfl

theorem Pending.setCalls (h : Pending calls clerks) {calls' : List (Call n)}
    (hcalls : ∀ (k : Nat) call, calls[k]? = some call →
      ∃ call', calls'[k]? = some call' ∧ call'.args = call.args) : Pending calls' clerks := by
  intro c k hk
  obtain ⟨request, call, hreq, hcall, hargs⟩ := h c k hk
  obtain ⟨call', hcall', hsame⟩ := hcalls k call hcall
  exact ⟨request, call', hreq, hcall', hsame.trans hargs⟩

theorem Pending.advance (h : Pending calls clerks) {k : Nat} {call : Call n}
    (hk : calls[k]? = some call) (progress : Progress) :
    Pending (calls.set k { call with progress := progress }) clerks := by
  refine h.setCalls fun k' call' hk' => ?_
  by_cases heq : k = k'
  · subst heq
    cases hk.symm.trans hk'
    exact ⟨_, List.getElem?_set_self (List.getElem?_eq_some_iff.mp hk).1, rfl⟩
  · exact ⟨call', by rwa [List.getElem?_set_ne heq], rfl⟩

/-- A clerk that waits for no call. -/
theorem Pending.setClerk (h : Pending calls clerks) (c : Nat) {ck : Clerk n}
    (hck : ck.pending = none) : Pending calls (Function.update clerks c ck) := by
  intro c' k hk
  by_cases hc : c' = c
  · subst hc
    rw [Function.update_self, hck] at hk
    cases hk
  · rw [Function.update_of_ne hc] at hk ⊢
    exact h c' k hk

end Steps

/-! ### The invariant of the service -/

theorem sound_init (n : Nat) [NeZero n] : Sound (service n).init where
  replicas :=
    { server := fun _ => isReplay_empty _
      saved := fun _ _ h => by cases h
      snapshot := fun _ h => by cases h }
  requests :=
    { proposed := fun _ h => by cases h
      logged := fun _ _ h => by cases h
      call := fun _ h => by cases h
      replied := fun _ h => by cases h }
  records :=
    { stamped := fun _ h => by cases h
      sorted := List.Pairwise.nil
      invoked := fun _ _ _ h => by cases h
      single := fun _ _ _ _ _ h => by cases h
      responded := fun _ _ _ h => by cases h
      once := List.nodup_nil
      clerk := fun _ =>
        { invoked := fun _ _ _ h => by cases h
          responded := fun _ _ _ h => by cases h
          busy := fun _ h => by cases h
          idle := fun _ => Nat.le_refl _ } }
  pending := fun _ _ h => by cases h

section Step
variable {w : World n}

theorem Sound.advance (h : Sound w) {k : Nat} {call : Call n} (hk : w.calls[k]? = some call)
    {progress : Progress} (hreply : ∀ reply, progress = .replied reply → reply.success = true →
      Answers w.log (call.args.clientId, call.args.reqNo) call.args.request reply.value) :
    Sound (w.advance k call progress) where
  replicas := h.replicas
  requests := h.requests.advance hk hreply
  records := h.records
  pending := h.pending.advance hk progress

theorem Sound.setServer (h : Sound w) (s : Fin n) {kv : KVServer} (hkv : IsReplay w.log kv) :
    Sound (w.setServer s kv) where
  replicas := h.replicas.setServer s hkv
  requests := h.requests
  records := h.records
  pending := h.pending

theorem Sound.invoke (h : Sound w) {c : Nat} (hidle : (w.clerks c).request = none)
    (request : Request) : Sound (w.invoke c request) where
  replicas := h.replicas
  requests := h.requests.observe (List.subset_append_left _ _)
  records := h.records.invoke (h.records.completed_le h.requests.logged) hidle request
  pending := h.pending.setClerk c rfl

theorem Sound.attempt (h : Sound w) {c : Nat} {request : Request}
    (hbusy : (w.clerks c).request = some request) : Sound (w.attempt c request) where
  replicas := h.replicas
  requests := by
    refine h.requests.setCalls fun call hm => ?_
    rcases List.mem_append.mp hm with hm | hm
    · exact .inl hm
    · rw [List.mem_singleton.mp hm]
      refine .inr ⟨?_, fun _ hreply => by cases hreply⟩
      simpa [Asked] using (h.records.clerk c).busy request hbusy
  records := h.records.setLoop c rfl rfl
  pending := by
    intro c' k hk
    by_cases hc : c' = c
    · subst hc
      simp only [World.attempt, Function.update_self] at hk ⊢
      cases hk
      exact ⟨request, _, hbusy, List.getElem?_concat_length, rfl⟩
    · simp only [World.attempt, Function.update_of_ne hc] at hk ⊢
      obtain ⟨r, call, hreq, hcall, hargs⟩ := h.pending c' k hk
      exact ⟨r, call, hreq, (List.getElem?_append_left
        (List.getElem?_eq_some_iff.mp hcall).1).trans hcall, hargs⟩

/-- A request reaches its server: it fails, is answered at once, or is proposed. -/
theorem Sound.enter (h : Sound w) {k : Nat} {call : Call n} (hk : w.calls[k]? = some call)
    (isLeader started : Bool) : Sound (w.enter k call isLeader started) := by
  have hfailed : ∀ reply : Reply, Progress.replied {} = .replied reply → reply.success = true →
      Answers w.log (call.args.clientId, call.args.reqNo) call.args.request reply.value := by
    rintro reply ⟨⟩ hsucc
    cases hsucc
  unfold World.enter
  rcases (w.servers call.server).serve_cases isLeader call.args with hs | ⟨hr, hs⟩ | hs <;>
    rw [hs]
  · exact h.advance hk hfailed
  · refine h.advance hk ?_
    rintro reply ⟨⟩ _
    exact (h.replicas.server call.server).answers hr _
  · cases started with
    | true =>
      have hprop : Sound { w with proposals := w.proposals ++ [call.args.op] } :=
        ⟨h.replicas, h.requests.propose (List.mem_of_getElem? hk), h.records, h.pending⟩
      exact hprop.advance hk fun _ hreply => by cases hreply
    | false => exact h.advance hk hfailed

theorem Sound.wake (h : Sound w) {k : Nat} {call : Call n} (hk : w.calls[k]? = some call)
    {leads : Bool} {reply : Reply}
    (hs : (w.servers call.server).serveWoken leads call.args = some reply) :
    Sound (w.advance k call (.replied reply)) := by
  refine h.advance hk ?_
  rintro reply ⟨⟩ hsucc
  rcases KVServer.serveWoken_cases hs with rfl | ⟨hr, rfl⟩
  · cases hsucc
  · exact (h.replicas.server call.server).answers hr _

theorem Sound.fail [NeZero n] (h : Sound w) (c : Nat) :
    Sound (w.setClerk c (w.clerks c).retry) where
  replicas := h.replicas
  requests := h.requests
  records := h.records.setLoop c rfl rfl
  pending := h.pending.setClerk c rfl

theorem Sound.finish (h : Sound w) {c k : Nat} {call : Call n} {reply : Reply}
    (hpend : (w.clerks c).pending = some k) (hk : w.calls[k]? = some call)
    (hreply : call.progress = .replied reply) (hsucc : reply.success = true) :
    Sound (w.finish c reply) := by
  obtain ⟨request, call', hbusy, hcall', hargs⟩ := h.pending c k hpend
  cases hk.symm.trans hcall'
  have hans := h.requests.replied call (List.mem_of_getElem? hk) reply hreply hsucc
  rw [hargs, Clerk.args_clientId, Clerk.args_reqNo, Clerk.args_request] at hans
  exact
    { replicas := h.replicas
      requests := h.requests.observe (List.subset_append_left _ _)
      records := h.records.finish hbusy hans
      pending := h.pending.setClerk c rfl }

theorem Sound.append (h : Sound w) {j : Nat} {op : Op} (hop : w.proposals[j]? = some op) :
    Sound { w with log := w.log ++ [op], proposals := w.proposals.eraseIdx j } where
  replicas := h.replicas.mono (List.prefix_append _ _)
  requests := h.requests.append h.records.stamped (List.mem_of_getElem? hop) j
  records := h.records.append (List.prefix_append _ _)
  pending := h.pending

theorem Sound.snapshot (h : Sound w) (s : Fin n) : Sound (w.snapshot s) where
  replicas :=
    { h.replicas.save s (h.replicas.server s) with
      snapshot := fun kv hkv => (List.mem_append.mp hkv).elim (h.replicas.snapshot kv) fun hkv =>
        List.mem_singleton.mp hkv ▸ h.replicas.server s }
  requests := h.requests
  records := h.records
  pending := h.pending

theorem Sound.install (h : Sound w) (s : Fin n) {data : KVServer} (hdata : data ∈ w.snapshots) :
    Sound (w.install s data) where
  replicas := by
    have hd := h.replicas.snapshot data hdata
    refine (h.replicas.save s hd).setServer s ?_
    unfold KVServer.applySnapshot
    split
    · exact hd
    · exact h.replicas.server s
  requests := h.requests
  records := h.records
  pending := h.pending

theorem Sound.restart (h : Sound w) (s : Fin n) : Sound (w.restart s) where
  replicas := by
    refine h.replicas.setServer s ?_
    cases hp : w.persisted s with
    | none => exact isReplay_empty _
    | some kv => exact h.replicas.saved s kv hp
  requests := by
    refine h.requests.setCalls fun call hm => ?_
    obtain ⟨call', hm', rfl⟩ := List.mem_map.mp hm
    split
    · exact .inr ⟨h.requests.call call' hm', fun _ hreply => by cases hreply⟩
    · exact .inl hm'
  records := h.records
  pending := by
    refine h.pending.setCalls fun k call hk =>
      ⟨_, by rw [World.restart, List.getElem?_map, hk]; rfl, ?_⟩
    dsimp only
    split <;> rfl

theorem Sound.step [NeZero n] (h : Sound w) {a : Action n} {w' : World n}
    (hstep : KVRaft.step w a = some w') : Sound w' := by
  cases a with
  | invoke c request =>
    simp only [KVRaft.step, Option.ite_none_right_eq_some, Option.some.injEq] at hstep
    obtain ⟨hidle, rfl⟩ := hstep
    exact h.invoke hidle request
  | attempt c =>
    simp only [KVRaft.step] at hstep
    split at hstep
    · cases hstep
      exact h.attempt ‹_›
    · cases hstep
  | enter k isLeader started =>
    simp only [KVRaft.step] at hstep
    split at hstep
    · cases hstep
    · simp only [Option.ite_none_right_eq_some, Option.some.injEq] at hstep
      obtain ⟨-, rfl⟩ := hstep
      exact h.enter ‹_› isLeader started
  | wake k leads =>
    simp only [KVRaft.step] at hstep
    split at hstep
    · cases hstep
    · simp only [Option.ite_none_right_eq_some, Option.map_eq_some_iff] at hstep
      obtain ⟨-, reply, hreply, rfl⟩ := hstep
      exact h.wake ‹_› hreply
  | fail c =>
    simp only [KVRaft.step, Option.ite_none_left_eq_some, Option.some.injEq] at hstep
    obtain ⟨-, rfl⟩ := hstep
    exact h.fail c
  | finish c =>
    simp only [KVRaft.step] at hstep
    split at hstep
    · cases hstep
    · rename_i call hcall
      obtain ⟨k, hpend, hk⟩ := Option.bind_eq_some_iff.mp hcall
      split at hstep
      · simp only [Option.ite_none_right_eq_some, Option.some.injEq] at hstep
        obtain ⟨hsucc, rfl⟩ := hstep
        exact h.finish hpend hk ‹_› hsucc
      · cases hstep
  | append j =>
    simp only [KVRaft.step, Option.map_eq_some_iff] at hstep
    obtain ⟨op, hop, rfl⟩ := hstep
    exact h.append hop
  | apply s =>
    simp only [KVRaft.step, Option.map_eq_some_iff] at hstep
    obtain ⟨op, hop, rfl⟩ := hstep
    exact h.setServer s ((h.replicas.server s).next hop)
  | snapshot s =>
    cases hstep
    exact h.snapshot s
  | install s j =>
    simp only [KVRaft.step, Option.map_eq_some_iff] at hstep
    obtain ⟨data, hdata, rfl⟩ := hstep
    exact h.install s (List.mem_of_getElem? hdata)
  | restart s =>
    cases hstep
    exact h.restart s

end Step

theorem sound_reach [NeZero n] {w : World n} (hw : (service n).Reach System.anyStep w) : Sound w :=
  hw.invariant (sound_init n) fun _ _ _ _ h _ hstep => h.step hstep

end RaftLabs.KVRaft
