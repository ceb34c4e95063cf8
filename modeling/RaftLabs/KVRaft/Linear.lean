import RaftLabs.KVRaft.Invariant

/-! The key/value service is linearizable.

A client has one call outstanding, so the first copy of a command in the log is the one that
takes effect and every later copy does nothing. An update takes its place in the order from
that first copy. A `Get` is answered from whatever prefix the answering server has applied by
then, which holds the first copy of the `Get` and may reach far beyond it, or lag behind the
other servers: its place is after that prefix. Both places lie between invocation and response,
because neither copies nor table entries of a call are older than the call. -/
namespace RaftLabs.KVRaft
open Lib

variable {n : Nat}

/-! ### The order of the calls -/

section Order
variable {w : World n} (h : Sound w)
include h

/-- An update that takes effect is one that was asked for, before it was in the log. -/
theorem Sound.slot_asked {i : Nat} {u : Operation CallId Request String}
    (hi : (slotsFrom {} w.log)[i]? = some (some u)) :
    (∃ t ≤ i, (.invoke u.id u.input, t) ∈ w.trace) ∧ u.input.isUpdate ∧
      (replay (w.log.take i)).completed u.id.1 < u.id.2 := by
  rw [slotsFrom_getElem?] at hi
  obtain ⟨op, hop, hslot⟩ := Option.map_eq_some_iff.mp hi
  obtain ⟨hlt, hup, rfl⟩ := slot_eq_some hslot
  obtain ⟨heq, t, ht, hasked⟩ := h.requests.logged i op hop
  refine ⟨⟨t, ht, ?_⟩, hup, hlt⟩
  rw [show op.clientId = op.arg.clientId from congrArg Op.clientId heq,
    show op.reqNo = op.arg.reqNo from congrArg Op.reqNo heq]
  exact hasked

theorem Sound.slot_fits {i : Nat} {u : Operation CallId Request String}
    (hi : (slotsFrom {} w.log)[i]? = some (some u)) : Fits w.trace (2 * i + 1) u := by
  obtain ⟨⟨t₀, hle, ht₀⟩, _, hlt⟩ := h.slot_asked hi
  refine ⟨⟨t₀, ht₀⟩, fun input t ht => ?_, fun out t ht => ?_⟩
  · have := (h.records.single _ _ _ _ _ ht₀ ht).2
    omega
  · obtain ⟨request, _, _, hans⟩ := h.records.responded _ _ _ ht
    have hdone := hans.completed
    by_contra hgt
    have := completed_take_mono w.log (show t ≤ i by omega) u.id.1
    omega

/-- A completed call that is not a read has a slot of its own. -/
theorem Sound.exists_slot {id : CallId} {request : Request} {t₀ : Nat}
    (hinv : (.invoke id request, t₀) ∈ w.trace) (hup : request.isUpdate = true)
    (hdone : id.2 ≤ (replay w.log).completed id.1) :
    ∃ i : Nat, (slotsFrom {} w.log)[i]? = some (some ⟨id, request, ""⟩) := by
  have hpos := h.records.invoked _ _ _ hinv
  obtain ⟨i, op, hop, hc, hlt, hr⟩ :=
    exists_completes w.log {} (hpos ▸ Nat.succ_pos _ : 0 < id.2) hdone
  change (replay (w.log.take i)).completed id.1 < id.2 at hlt
  obtain ⟨heq, t, ht, hasked⟩ := h.requests.logged i op hop
  have hc' : op.arg.clientId = id.1 := (congrArg Op.clientId heq).symm.trans hc
  have hr' : op.arg.reqNo = op.reqNo := (congrArg Op.reqNo heq).symm
  -- a later call of the client would only be in the log after this one was executed
  have hno : op.reqNo = id.2 := by
    have hprev := h.records.invoked _ _ _ hasked
    rw [hc', hr'] at hprev
    dsimp only at hprev
    have := completed_take_mono w.log ht id.1
    omega
  rw [Asked, hc', hr', hno] at hasked
  have hreq := (h.records.single _ _ _ _ _ hinv hasked).1
  refine ⟨i, ?_⟩
  rw [slotsFrom_getElem?, hop, Option.map_some, slot, hc, hno, ← hreq, if_pos ⟨hlt, hup⟩]

theorem Sound.explained {id : CallId} {value : String} {t : Nat}
    (hresp : (.respond id value, t) ∈ w.trace) :
    Explained mapObject w.trace (slotsFrom {} w.log) id value := by
  obtain ⟨request, t₀, hinv, q, hq, hr, hv⟩ := h.records.responded id value t hresp
  have hqt : q ≤ t := hq.trans (List.length_take_le _ _)
  rw [List.take_take, Nat.min_eq_left hqt] at hr hv
  cases request with
  | putAppend op key v =>
    subst hv
    obtain ⟨i, hi⟩ := h.exists_slot hinv rfl
      (hr.trans (completed_mono (List.take_prefix _ _) _))
    exact .update i _ hi
  | get key =>
    have hrun : mapObject.run mapObject.init ((slotsFrom {} w.log).take q).reduceOption =
        (replay (w.log.take q)).kvMap := by
      rw [slotsFrom_take]
      exact run_slotsFrom {} _
    refine .read q (.get key) ?_ ?_ ⟨⟨t₀, hinv⟩, fun input t' ht' => ?_, fun out t' ht' => ?_⟩ ?_
    · rw [slotsFrom_length]
      exact hqt.trans (h.records.stamped _ hresp)
    · rw [hrun, hv]
      rfl
    -- the prefix holds the call, so it is longer than the log was at the invocation
    · have hprev : id.2 = (replay (w.log.take t')).completed id.1 + 1 :=
        h.records.invoked _ _ _ ht'
      by_contra hge
      have := completed_take_mono w.log (show q ≤ t' by omega) id.1
      omega
    · have := (respond_unique h.records.once hresp ht').2
      omega
    · intro u hu heq
      obtain ⟨i, hi⟩ := List.mem_iff_getElem?.mp (List.reduceOption_mem_iff.mp hu)
      obtain ⟨⟨t₁, _, ht₁⟩, hup, _⟩ := h.slot_asked hi
      rw [heq] at ht₁
      rw [← (h.records.single _ _ _ _ _ hinv ht₁).1] at hup
      cases hup

end Order

/-- **Linearizability of the key/value service.** In every run, some order of the calls,
each of them once, explains what the callers of the clerks have seen; executing the calls
in this order passes through the map of every server and ends in the map that the whole log
leaves. -/
theorem linearizable [NeZero n] {w : World n} (hw : (service n).Reach System.anyStep w) :
    ∃ S, Linearizes mapObject w.history S ∧
      (∀ s, ∃ S', S' <+: S ∧ (w.servers s).kvMap = mapObject.run mapObject.init S') ∧
      mapObject.run mapObject.init S = (replay w.log).kvMap := by
  have h := sound_reach hw
  obtain ⟨S, hlin, hrun, hinitial⟩ := exists_linearization h.records.sorted h.records.once
    (slotsFrom_once {} w.log) (legal_slotsFrom {} w.log) (fun _ _ hi => h.slot_fits hi)
    (fun _ _ _ hresp => h.explained hresp)
  refine ⟨S, hlin, fun s => ?_, hrun.trans (run_slotsFrom {} w.log)⟩
  obtain ⟨p, hp, hs⟩ := h.replicas.server s
  obtain ⟨S', hS', hrun'⟩ := hinitial p.length
  refine ⟨S', hS', ?_⟩
  rw [hrun', slotsFrom_take, ← List.prefix_iff_eq_take.mp hp, hs]
  exact (run_slotsFrom {} p).symm

/-- Clerk 0 appends and tries twice, so that the log holds two copies; clerk 1 reads. -/
def appendTwice (s : Fin n) : List (Action n) :=
  [.invoke 0 (.putAppend .append "k" "a"), .attempt 0, .enter 0 true true, .fail 0, .attempt 0,
   .enter 1 true true, .append 0, .append 0, .apply s, .apply s, .wake 1 true, .finish 0,
   .invoke 1 (.get "k"), .attempt 1, .enter 2 true true, .append 0, .apply s, .wake 2 true,
   .finish 1]

theorem appendTwice_runs :
    (((service 2).run (service 2).init (appendTwice 0)).map (·.history)) =
      some [.invoke (0, 1) (.putAppend .append "k" "a"), .respond (0, 1) "",
        .invoke (1, 1) (.get "k"), .respond (1, 1) "a"] := by
  decide +kernel

theorem linearizable_appendTwice : ∃ w : World 2, (service 2).Reach System.anyStep w ∧
    w.history = [.invoke (0, 1) (.putAppend .append "k" "a"), .respond (0, 1) "",
      .invoke (1, 1) (.get "k"), .respond (1, 1) "a"] ∧ ∃ S, Linearizes mapObject w.history S := by
  obtain ⟨w, hrun, hhist⟩ := Option.map_eq_some_iff.mp appendTwice_runs
  have hreach := System.reach_run .init (fun _ _ => trivial) _ hrun
  obtain ⟨S, hS, _⟩ := linearizable hreach
  exact ⟨w, hreach, hhist, S, hS⟩

end RaftLabs.KVRaft
