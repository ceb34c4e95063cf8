import Mathlib.Data.Nat.Basic
import Mathlib.Order.Basic
import RaftLabs.Lib.Linearizability

/-! Clients with at most one call outstanding, and what their callers see.

Calls are numbered from a counter, so a call is named by its client and its number. `Sessions`
is the bookkeeping of such a system: the trace is in the order of its stamps, no call is invoked
or answered twice, and every response was the answer to its call at the time of its stamp.
`Sessions.linearization` turns it into an order of the calls, for a log whose slots hold the
updates. -/
namespace RaftLabs.Lib

/-- A client: the number of its last call, and the call while it is outstanding. -/
structure Session (In : Type) where
  number : Nat := 0
  call : Option In := none

variable {In Out : Type}

/-- `answers t id input out` says that `out` was an answer to the call at time `t`. -/
structure Sessions (answers : Nat → Nat × Nat → In → Out → Prop)
    (trace : List (HistoryEvent (Nat × Nat) In Out × Nat)) (client : Nat → Session In)
    (counter now : Nat) : Prop where
  stamped : ∀ e ∈ trace, e.2 ≤ now
  sorted : trace.Pairwise fun a b => a.2 ≤ b.2
  single : ∀ id input input' t t', (.invoke id input, t) ∈ trace → (.invoke id input', t') ∈ trace →
    input = input' ∧ t = t'
  once : (responses trace).Nodup
  responded : ∀ id out t, (.respond id out, t) ∈ trace →
    ∃ input t₀, (.invoke id input, t₀) ∈ trace ∧ answers t id input out
  counted : ∀ c, (client c).number ≤ counter
  invoked : ∀ id input t, (.invoke id input, t) ∈ trace → 0 < id.2 ∧ id.2 ≤ (client id.1).number
  finished : ∀ id out t, (.respond id out, t) ∈ trace →
    id.2 ≤ (client id.1).number ∧ ((client id.1).call ≠ none → id.2 < (client id.1).number)
  busy : ∀ c input, (client c).call = some input →
    ∃ t, (.invoke (c, (client c).number) input, t) ∈ trace

namespace Sessions
variable {answers answers' : Nat → Nat × Nat → In → Out → Prop}
variable {trace : List (HistoryEvent (Nat × Nat) In Out × Nat)} {client : Nat → Session In}
variable {counter now now' : Nat}

theorem initial : Sessions answers [] (fun _ => {}) 0 0 where
  stamped _ h := nomatch h
  sorted := .nil
  single _ _ _ _ _ h := nomatch h
  once := List.nodup_nil
  responded _ _ _ h := nomatch h
  counted _ := Nat.le_refl 0
  invoked _ _ _ h := nomatch h
  finished _ _ _ h := nomatch h
  busy _ _ h := nomatch h

/-- Time passes; what was an answer at a past time stays one. -/
theorem later (h : Sessions answers trace client counter now) (hnow : now ≤ now')
    (hans : ∀ t ≤ now, ∀ id input out, answers t id input out → answers' t id input out) :
    Sessions answers' trace client counter now' where
  stamped e he := (h.stamped e he).trans hnow
  sorted := h.sorted
  single := h.single
  once := h.once
  responded id out t hm := by
    obtain ⟨input, t₀, hinv, ha⟩ := h.responded id out t hm
    exact ⟨input, t₀, hinv, hans t (h.stamped _ hm) id input out ha⟩
  counted := h.counted
  invoked := h.invoked
  finished := h.finished
  busy := h.busy

/-- The next number of the counter is new. -/
theorem not_invoked (h : Sessions answers trace client counter now) (c : Nat) (input : In)
    (t : Nat) : (.invoke (c, counter + 1) input, t) ∉ trace := by
  intro hm
  have hle : counter + 1 ≤ (client c).number := (h.invoked _ _ _ hm).2
  have := h.counted c
  omega

/-- A client's outstanding call has no response yet. -/
theorem not_responded (h : Sessions answers trace client counter now) {c : Nat}
    (hcall : (client c).call ≠ none) (out : Out) (t : Nat) :
    (.respond (c, (client c).number) out, t) ∉ trace :=
  fun hm => Nat.lt_irrefl _ ((h.finished _ _ _ hm).2 hcall)

/-- A client calls, with the next number of the counter. -/
theorem begin (h : Sessions answers trace client counter now) (c : Nat) (input : In) :
    Sessions answers (trace ++ [(.invoke (c, counter + 1) input, now)])
      (Function.update client c { number := counter + 1, call := some input })
      (counter + 1) now := by
  have hnumber : ∀ c', (client c').number ≤ (Function.update client c
      { number := counter + 1, call := some input } c').number := by
    intro c'
    by_cases hc : c' = c
    · subst hc
      rw [Function.update_self]
      exact (h.counted c').trans (Nat.le_succ _)
    · rw [Function.update_of_ne hc]
  constructor
  case stamped => exact stamped_concat h.stamped _
  case sorted => exact sorted_concat h.sorted h.stamped _
  case single =>
    intro id input₁ input₂ t₁ t₂ h₁ h₂
    rcases invoke_mem_invoke.mp h₁ with hold₁ | ⟨rfl, rfl, rfl⟩ <;>
      rcases invoke_mem_invoke.mp h₂ with hold₂ | ⟨heq, rfl, rfl⟩
    · exact h.single _ _ _ _ _ hold₁ hold₂
    · exact absurd (heq ▸ hold₁) (h.not_invoked c _ _)
    · exact absurd hold₂ (h.not_invoked c _ _)
    · exact ⟨rfl, rfl⟩
  case once => exact responses_concat_invoke h.once
  case responded =>
    intro id out t hm
    obtain ⟨input', t₀, hinv, ha⟩ := h.responded id out t (respond_mem_invoke.mp hm)
    exact ⟨input', t₀, List.mem_append_left _ hinv, ha⟩
  case counted =>
    intro c'
    by_cases hc : c' = c
    · rw [hc, Function.update_self]
    · rw [Function.update_of_ne hc]
      exact (h.counted c').trans (Nat.le_succ _)
  case invoked =>
    intro id input' t hm
    rcases invoke_mem_invoke.mp hm with hm | ⟨rfl, -, -⟩
    · obtain ⟨hpos, hle⟩ := h.invoked _ _ _ hm
      exact ⟨hpos, hle.trans (hnumber id.1)⟩
    · rw [Function.update_self]
      exact ⟨Nat.succ_pos _, Nat.le_refl _⟩
  case finished =>
    intro id out t hm
    obtain ⟨hle, hlt⟩ := h.finished id out t (respond_mem_invoke.mp hm)
    refine ⟨hle.trans (hnumber id.1), fun hcall => ?_⟩
    by_cases hc : id.1 = c
    · rw [hc, Function.update_self]
      exact Nat.lt_succ_of_le (hle.trans (h.counted id.1))
    · rw [Function.update_of_ne hc] at hcall ⊢
      exact hlt hcall
  case busy =>
    intro c' input' hcall
    by_cases hc : c' = c
    · subst hc
      rw [Function.update_self] at hcall ⊢
      cases hcall
      exact ⟨now, List.mem_append_right _ List.mem_cons_self⟩
    · rw [Function.update_of_ne hc] at hcall ⊢
      obtain ⟨t, hm⟩ := h.busy c' input' hcall
      exact ⟨t, List.mem_append_left _ hm⟩

/-- A client's call is answered. -/
theorem done (h : Sessions answers trace client counter now) {c : Nat} {input : In} {out : Out}
    (hcall : (client c).call = some input) (hans : answers now (c, (client c).number) input out) :
    Sessions answers (trace ++ [(.respond (c, (client c).number) out, now)])
      (Function.update client c { number := (client c).number }) counter now := by
  have hnumber : ∀ c', (Function.update client c { number := (client c).number } c').number =
      (client c').number := by
    intro c'
    by_cases hc : c' = c
    · rw [hc, Function.update_self]
    · rw [Function.update_of_ne hc]
  -- who is calling now was calling before, and is another client
  have hcalling : ∀ c', (Function.update client c { number := (client c).number } c').call ≠ none →
      (client c').call ≠ none ∧ c' ≠ c := by
    intro c' hne
    have hc : c' ≠ c := by
      rintro rfl
      rw [Function.update_self] at hne
      exact hne rfl
    rw [Function.update_of_ne hc] at hne
    exact ⟨hne, hc⟩
  have hopen := h.not_responded (hcall ▸ Option.some_ne_none input)
  constructor
  case stamped => exact stamped_concat h.stamped _
  case sorted => exact sorted_concat h.sorted h.stamped _
  case single =>
    intro id input₁ input₂ t₁ t₂ h₁ h₂
    exact h.single _ _ _ _ _ (invoke_mem_respond.mp h₁) (invoke_mem_respond.mp h₂)
  case once => exact responses_concat_respond h.once hopen
  case responded =>
    intro id out' t hm
    rcases respond_mem_respond.mp hm with hold | ⟨rfl, rfl, rfl⟩
    · obtain ⟨input', t₀, hinv, ha⟩ := h.responded id out' t hold
      exact ⟨input', t₀, List.mem_append_left _ hinv, ha⟩
    · obtain ⟨t₀, hinv⟩ := h.busy c input hcall
      exact ⟨input, t₀, List.mem_append_left _ hinv, hans⟩
  case counted =>
    intro c'
    rw [hnumber c']
    exact h.counted c'
  case invoked =>
    intro id input' t hm
    rw [hnumber id.1]
    exact h.invoked id input' t (invoke_mem_respond.mp hm)
  case finished =>
    intro id out' t hm
    rw [hnumber id.1]
    rcases respond_mem_respond.mp hm with hold | ⟨rfl, rfl, rfl⟩
    · obtain ⟨hle, hlt⟩ := h.finished id out' t hold
      exact ⟨hle, fun hne => hlt (hcalling _ hne).1⟩
    · exact ⟨Nat.le_refl _, fun hne => absurd rfl (hcalling _ hne).2⟩
  case busy =>
    intro c' input' hsome
    have hc := (hcalling c' (hsome ▸ Option.some_ne_none input')).2
    rw [hnumber c']
    rw [Function.update_of_ne hc] at hsome
    obtain ⟨t, hm⟩ := h.busy c' input' hsome
    exact ⟨t, List.mem_append_left _ hm⟩

/-! ### An order of the calls -/

variable {σ : Type} {O : Object σ In Out} {slots : List (Option (Operation (Nat × Nat) In Out))}

/-- Slots that hold different calls hold each call once. -/
theorem nodup_of_unique (h : ∀ (i j : Nat) (op op' : Operation (Nat × Nat) In Out),
    slots[i]? = some (some op) → slots[j]? = some (some op') → op.id = op'.id → i = j) :
    (slots.reduceOption.map (·.id)).Nodup := by
  induction slots with
  | nil => exact List.nodup_nil
  | cons slot rest ih =>
    have hrest := ih fun i j op op' hi hj heq =>
      Nat.succ.inj (h (i + 1) (j + 1) op op' hi hj heq)
    cases slot with
    | none => exact hrest
    | some u =>
      refine List.nodup_cons.mpr ⟨fun hm => ?_, hrest⟩
      obtain ⟨v, hv, hid⟩ := List.mem_map.mp hm
      obtain ⟨j, hj⟩ := List.mem_iff_getElem?.mp (List.reduceOption_mem_iff.mp hv)
      cases h 0 (j + 1) u v rfl hj hid.symm

variable (O slots) in
/-- The answer to a call at time `t`: of the update in an earlier slot, or of a read of a prefix
that is longer than the log was at the invocation. -/
inductive Settled (trace : List (HistoryEvent (Nat × Nat) In Out × Nat)) (t : Nat) (id : Nat × Nat)
    (input : In) (out : Out) : Prop
  | update (i : Nat) (hi : i < t) (hslot : slots[i]? = some (some ⟨id, input, out⟩))
  | read (q : Nat) (hq : q ≤ t)
      (hstep : O.step (O.run O.init (slots.take q).reduceOption) input =
        (O.run O.init (slots.take q).reduceOption, out))
      (hafter : ∀ input' t₀, (.invoke id input', t₀) ∈ trace → t₀ < q)
      (hnew : ∀ op ∈ slots.reduceOption, op.id ≠ id)

/-- **Linearizability of sessions over a log.** -/
theorem linearization (h : Sessions answers trace client counter now) (hlength : slots.length = now)
    (hasked : ∀ (i : Nat) (op : Operation (Nat × Nat) In Out), slots[i]? = some (some op) →
      ∃ t ≤ i, (.invoke op.id op.input, t) ∈ trace)
    (hunique : ∀ (i j : Nat) (op op' : Operation (Nat × Nat) In Out),
      slots[i]? = some (some op) → slots[j]? = some (some op') →
      op.id = op'.id → i = j)
    (hlegal : O.Legal O.init slots.reduceOption)
    (hsettled : ∀ id input out t t₀, (.invoke id input, t₀) ∈ trace → t ≤ now →
      answers t id input out → Settled O slots trace t id input out) :
    ∃ S, Linearizes O (trace.map (·.1)) S ∧ O.run O.init S = O.run O.init slots.reduceOption ∧
      ∀ j, ∃ S', S' <+: S ∧ O.run O.init S' = O.run O.init (slots.take j).reduceOption := by
  have hresponse : ∀ id out t, (.respond id out, t) ∈ trace →
      ∃ input t₀, (.invoke id input, t₀) ∈ trace ∧ Settled O slots trace t id input out := by
    intro id out t hm
    obtain ⟨input, t₀, hinv, ha⟩ := h.responded id out t hm
    exact ⟨input, t₀, hinv, hsettled id input out t t₀ hinv (h.stamped _ hm) ha⟩
  have honce : (slots.reduceOption.map (·.id)).Nodup := nodup_of_unique hunique
  refine exists_linearization h.sorted h.once honce hlegal (fun i op hi => ?_)
    fun id out t hm => ?_
  · obtain ⟨t₀, hle, hinv⟩ := hasked i op hi
    refine ⟨⟨t₀, hinv⟩, fun input t ht => ?_, fun out t ht => ?_⟩
    · have := (h.single _ _ _ _ _ hinv ht).2
      omega
    · obtain ⟨input, t₁, -, hset⟩ := hresponse _ _ _ ht
      cases hset with
      | update j hj hslot =>
        have := hunique i j op _ hi hslot rfl
        omega
      | read q hq hstep hafter hnew =>
        exact absurd rfl (hnew op (List.reduceOption_mem_iff.mpr (List.mem_of_getElem? hi)))
  · obtain ⟨input, t₀, hinv, hset⟩ := hresponse _ _ _ hm
    cases hset with
    | update i hi hslot => exact .update i input hslot
    | read q hq hstep hafter hnew =>
      refine .read q input ?_ hstep ⟨⟨t₀, hinv⟩, fun input' t' ht' => ?_, fun out' t' ht' => ?_⟩ hnew
      · rw [hlength]
        exact hq.trans (h.stamped _ hm)
      · have := hafter input' t' ht'
        omega
      · have := (respond_unique h.once hm ht').2
        omega

end Sessions

end RaftLabs.Lib
