import Mathlib.Data.List.Basic
import Mathlib.Data.List.Nodup
import Mathlib.Data.List.NodupEquivFin
import Mathlib.Data.List.ReduceOption

/-! Linearizability of histories, and how to show it for a log-structured object.

A history is a list of invocations and responses. It is linearizable for a
sequential object when the operations that responded, and possibly some that did
not, can be put in one order that the object could have executed, with the
responses it would have given, and that never puts an operation before one that
had responded when it was invoked.

`exists_linearization` covers the objects whose updates happen one after the
other in the slots of a log while reads look at a prefix of that log: every event
of the history is stamped with the length of the log, an update has to be in a
slot between its stamps, and a read has to look at a prefix between its stamps. -/
namespace RaftLabs.Lib

/-- A sequential object: what an operation does to the state and what it returns. -/
structure Object (σ In Out : Type) where
  init : σ
  step : σ → In → σ × Out

/-- An operation with its result. -/
structure Operation (Id In Out : Type) where
  id : Id
  input : In
  output : Out

/-- What a client of a concurrent object sees. -/
inductive HistoryEvent (Id In Out : Type) where
  | invoke (id : Id) (input : In)
  | respond (id : Id) (output : Out)
deriving DecidableEq

variable {σ Id In Out : Type}

namespace Object
variable (O : Object σ In Out)

def run (s : σ) (ops : List (Operation Id In Out)) : σ :=
  ops.foldl (fun s op => (O.step s op.input).1) s

/-- The object, started in `s`, executes the operations with these results. -/
def Legal : σ → List (Operation Id In Out) → Prop
  | _, [] => True
  | s, op :: rest => (O.step s op.input).2 = op.output ∧ Legal (O.step s op.input).1 rest

variable {O} {s : σ} {l m : List (Operation Id In Out)}

theorem run_append : O.run s (l ++ m) = O.run (O.run s l) m := List.foldl_append

theorem legal_append : O.Legal s (l ++ m) ↔ O.Legal s l ∧ O.Legal (O.run s l) m := by
  induction l generalizing s with
  | nil => exact ⟨fun h => ⟨trivial, h⟩, fun h => h.2⟩
  | cons op l ih =>
    show (_ ∧ O.Legal _ (l ++ m)) ↔ _
    rw [ih]
    exact and_assoc.symm

/-- Operations whose results do not depend on the state can be executed in any order. -/
theorem legal_of_outputs (h : ∀ op ∈ l, ∀ s, (O.step s op.input).2 = op.output) : O.Legal s l := by
  induction l generalizing s with
  | nil => trivial
  | cons op l ih =>
    exact ⟨h op List.mem_cons_self s, ih fun op' hm => h op' (List.mem_cons_of_mem _ hm)⟩

/-- Operations that leave the state alone can be executed in any number. -/
theorem legal_reads (h : ∀ op ∈ l, O.step s op.input = (s, op.output)) :
    O.Legal s l ∧ O.run s l = s := by
  induction l with
  | nil => exact ⟨trivial, rfl⟩
  | cons op l ih =>
    have hop := h op List.mem_cons_self
    obtain ⟨hlegal, hrun⟩ := ih fun op' hm => h op' (List.mem_cons_of_mem _ hm)
    refine ⟨⟨by rw [hop], by rw [hop]; exact hlegal⟩, ?_⟩
    show O.run (O.step s op.input).1 l = s
    rw [hop]
    exact hrun

end Object

/-- Operation `a` has responded before `b` is invoked. -/
def Precedes (H : List (HistoryEvent Id In Out)) (a b : Id) : Prop :=
  ∃ (i j : Nat) (out : Out) (input : In),
    i < j ∧ H[i]? = some (.respond a out) ∧ H[j]? = some (.invoke b input)

/-- `S` is an order of the operations of `H` that explains it. -/
structure Linearizes (O : Object σ In Out) (H : List (HistoryEvent Id In Out))
    (S : List (Operation Id In Out)) : Prop where
  once : (S.map (·.id)).Nodup
  invoked : ∀ op ∈ S, .invoke op.id op.input ∈ H
  complete : ∀ id out, .respond id out ∈ H → ∃ op ∈ S, op.id = id ∧ op.output = out
  legal : O.Legal O.init S
  ordered : S.Pairwise fun a b => ¬ Precedes H b.id a.id

def Linearizable (O : Object σ In Out) (H : List (HistoryEvent Id In Out)) : Prop :=
  ∃ S, Linearizes O H S

/-! ### A part of the object -/

def HistoryEvent.id : HistoryEvent Id In Out → Id
  | .invoke id _ => id
  | .respond id _ => id

theorem Precedes.of_filter {H : List (HistoryEvent Id In Out)} {p : HistoryEvent Id In Out → Bool}
    {a b : Id} (h : Precedes (H.filter p) a b) : Precedes H a b := by
  obtain ⟨i, j, out, input, hij, hi, hj⟩ := h
  obtain ⟨f, hf⟩ := List.sublist_iff_exists_orderEmbedding_getElem?_eq.mp
    (List.filter_sublist (p := p) (l := H))
  exact ⟨f i, f j, out, input, f.lt_iff_lt.mpr hij, (hf i).symm.trans hi, (hf j).symm.trans hj⟩

/-- The operations that a part `O'` of the object sees, `proj` being its state: they do to it
what they do to the whole, and all others leave it alone. -/
structure Projects {σ' : Type} (O : Object σ In Out) (O' : Object σ' In Out) (proj : σ → σ')
    (sees : In → Bool) : Prop where
  init : proj O.init = O'.init
  step : ∀ s input, sees input = true →
    O'.step (proj s) input = (proj (O.step s input).1, (O.step s input).2)
  skip : ∀ s input, sees input = false → proj (O.step s input).1 = proj s

section Project
variable {σ' : Type} {O : Object σ In Out} {O' : Object σ' In Out} {proj : σ → σ'}
variable {sees : In → Bool} {H : List (HistoryEvent Id In Out)} {S : List (Operation Id In Out)}

theorem Projects.legal (h : Projects O O' proj sees) {s : σ} (hlegal : O.Legal s S) :
    O'.Legal (proj s) (S.filter fun op => sees op.input) := by
  induction S generalizing s with
  | nil => trivial
  | cons op rest ih =>
    have hrest := ih hlegal.2
    by_cases hop : sees op.input = true
    · rw [List.filter_cons, if_pos hop, Object.Legal, h.step s op.input hop]
      exact ⟨hlegal.1, hrest⟩
    · rw [List.filter_cons, if_neg hop]
      rwa [h.skip s op.input (Bool.eq_false_of_not_eq_true hop)] at hrest

/-- **A history of the whole that is linearizable is so for each part.** `sel` picks out the
operations of the part by their names. -/
theorem Linearizes.project (h : Linearizes O H S) (hproj : Projects O O' proj sees)
    {sel : Id → Bool} (hsel : ∀ op ∈ S, sel op.id = sees op.input) :
    Linearizes O' (H.filter fun e => sel e.id) (S.filter fun op => sees op.input) where
  once := h.once.sublist (List.filter_sublist.map _)
  invoked op hop := by
    obtain ⟨hmem, hsees⟩ := List.mem_filter.mp hop
    exact List.mem_filter.mpr ⟨h.invoked op hmem, (hsel op hmem).trans hsees⟩
  complete id out hm := by
    obtain ⟨hmem, hid⟩ := List.mem_filter.mp hm
    obtain ⟨op, hop, rfl, hout⟩ := h.complete id out hmem
    exact ⟨op, List.mem_filter.mpr ⟨hop, (hsel op hop).symm.trans hid⟩, rfl, hout⟩
  legal := hproj.init ▸ hproj.legal h.legal
  ordered := (h.ordered.sublist List.filter_sublist).imp fun hno hprec => hno hprec.of_filter

end Project

/-! ### Updates in slots and reads between them -/

/-- The reads that look at the prefix of length `q`. -/
def readsAt (reads : List (Nat × Operation Id In Out)) (q : Nat) : List (Operation Id In Out) :=
  (reads.filter (·.1 == q)).map (·.2)

/-- The updates of the slots from number `q` on, each before the reads that see it. An
operation is labelled with its place: `2 * q` for a read of the first `q` slots,
`2 * q + 1` for the update in slot `q`. -/
def interleave (reads : List (Nat × Operation Id In Out)) (q : Nat) :
    List (Option (Operation Id In Out)) → List (Nat × Operation Id In Out)
  | [] => (readsAt reads q).map (2 * q, ·)
  | slot :: rest =>
    (readsAt reads q).map (2 * q, ·) ++
      (slot.toList.map (2 * q + 1, ·) ++ interleave reads (q + 1) rest)

section Interleave
variable {reads : List (Nat × Operation Id In Out)} {q : Nat}
variable {slots : List (Option (Operation Id In Out))}

theorem mem_readsAt {op : Operation Id In Out} : op ∈ readsAt reads q ↔ (q, op) ∈ reads := by
  simp [readsAt]

theorem mem_interleave {p : Nat × Operation Id In Out} : p ∈ interleave reads q slots ↔
    (∃ j ≤ slots.length, p.1 = 2 * (q + j) ∧ (q + j, p.2) ∈ reads) ∨
    (∃ j, p.1 = 2 * (q + j) + 1 ∧ slots[j]? = some (some p.2)) := by
  induction slots generalizing q with
  | nil =>
    simp only [interleave, List.mem_map, mem_readsAt, List.length_nil, List.getElem?_nil]
    constructor
    · rintro ⟨op, hop, rfl⟩
      exact .inl ⟨0, Nat.le_refl 0, rfl, hop⟩
    · rintro (⟨j, hj, hp, hop⟩ | ⟨j, _, hj⟩)
      · cases Nat.le_zero.mp hj
        exact ⟨p.2, hop, Prod.ext hp.symm rfl⟩
      · cases hj
  | cons slot rest ih =>
    simp only [interleave, List.mem_append, List.mem_map, mem_readsAt, ih, Option.mem_toList]
    constructor
    · rintro (⟨op, hop, rfl⟩ | ⟨op, hop, rfl⟩ | ⟨j, hj, hp, hop⟩ | ⟨j, hp, hop⟩)
      · exact .inl ⟨0, Nat.zero_le _, rfl, hop⟩
      · exact .inr ⟨0, rfl, congrArg some hop⟩
      · refine .inl ⟨j + 1, Nat.succ_le_succ hj, by omega, ?_⟩
        rwa [show q + (j + 1) = q + 1 + j by omega]
      · exact .inr ⟨j + 1, by omega, hop⟩
    · rintro (⟨j, hj, hp, hop⟩ | ⟨j, hp, hop⟩) <;> cases j with
      | zero => first
        | exact .inl ⟨p.2, hop, Prod.ext hp.symm rfl⟩
        | exact .inr (.inl ⟨p.2, Option.some.inj hop, Prod.ext hp.symm rfl⟩)
      | succ j => first
        | exact .inr (.inr (.inl ⟨j, Nat.le_of_succ_le_succ hj, by omega,
            by rwa [show q + 1 + j = q + (j + 1) by omega]⟩))
        | exact .inr (.inr (.inr ⟨j, by omega, hop⟩))

theorem interleave_le {p : Nat × Operation Id In Out} (h : p ∈ interleave reads q slots) :
    2 * q ≤ p.1 := by
  rcases mem_interleave.mp h with ⟨j, _, hp, _⟩ | ⟨j, hp, _⟩ <;> omega

theorem interleave_sorted : (interleave reads q slots).Pairwise (fun a b => a.1 ≤ b.1) := by
  induction slots generalizing q with
  | nil =>
    rw [interleave, List.pairwise_map]
    exact List.pairwise_of_forall fun _ _ => Nat.le_refl _
  | cons slot rest ih =>
    rw [interleave, List.pairwise_append, List.pairwise_append, List.pairwise_map,
      List.pairwise_map]
    refine ⟨List.pairwise_of_forall fun _ _ => Nat.le_refl _,
      ⟨List.pairwise_of_forall fun _ _ => Nat.le_refl _, ih, ?_⟩, ?_⟩
    · intro a ha b hb
      obtain ⟨op, _, rfl⟩ := List.mem_map.mp ha
      have := interleave_le hb
      show 2 * q + 1 ≤ b.1
      omega
    · intro a ha b hb
      obtain ⟨op, _, rfl⟩ := List.mem_map.mp ha
      show 2 * q ≤ b.1
      rcases List.mem_append.mp hb with hb | hb
      · obtain ⟨op, _, rfl⟩ := List.mem_map.mp hb
        exact Nat.le_succ _
      · have := interleave_le hb
        omega

/-- What follows slot `q` is a later read or a later update. -/
theorem later_of_mem_interleave {p : Nat × Operation Id In Out}
    (hp : p ∈ interleave reads (q + 1) slots) :
    (∃ q', q < q' ∧ (q', p.2) ∈ reads) ∨ p.2 ∈ slots.reduceOption := by
  rcases mem_interleave.mp hp with ⟨j, _, _, hop⟩ | ⟨j, _, hop⟩
  · exact .inl ⟨_, by omega, hop⟩
  · exact .inr (List.reduceOption_mem_iff.mpr (List.mem_of_getElem? hop))

/-- The update in the first slot is none of the later ones. -/
theorem nodup_slots_cons {slot : Option (Operation Id In Out)}
    (h : ((slot :: slots).reduceOption.map (·.id)).Nodup) :
    (slots.reduceOption.map (·.id)).Nodup ∧
      ∀ op ∈ slot, ∀ op' ∈ slots.reduceOption, op.id ≠ op'.id := by
  cases slot with
  | none => exact ⟨h, nofun⟩
  | some u =>
    rw [List.reduceOption_cons_of_some, List.map_cons, List.nodup_cons] at h
    refine ⟨h.2, ?_⟩
    intro op hop op' hop' heq
    rw [Option.some.inj hop, heq] at h
    exact h.1 (List.mem_map_of_mem hop')

/-- Every operation occurs once: it is one of the reads or in one of the slots. -/
theorem interleave_once (hreads : (reads.map (·.2.id)).Nodup)
    (hslots : (slots.reduceOption.map (·.id)).Nodup)
    (hdisj : ∀ p ∈ reads, ∀ op ∈ slots.reduceOption, p.2.id ≠ op.id) :
    ((interleave reads q slots).map (·.2.id)).Nodup := by
  have hat : ∀ q, ((readsAt reads q).map (·.id)).Nodup := by
    intro q
    rw [readsAt, List.map_map]
    exact hreads.sublist (List.filter_sublist.map _)
  have hsame : ∀ p ∈ reads, ∀ p' ∈ reads, p.2.id = p'.2.id → p = p' := fun p hp p' hp' heq =>
    List.inj_on_of_nodup_map hreads hp hp' heq
  induction slots generalizing q with
  | nil =>
    rw [interleave, List.map_map]
    exact hat q
  | cons slot rest ih =>
    have hrest : ∀ op ∈ rest.reduceOption, op ∈ (slot :: rest).reduceOption := fun op hop =>
      List.reduceOption_mem_iff.mpr (List.mem_cons_of_mem _ (List.reduceOption_mem_iff.mp hop))
    have hslot : ∀ op ∈ slot, op ∈ (slot :: rest).reduceOption := by
      rintro op rfl
      exact List.reduceOption_mem_iff.mpr List.mem_cons_self
    have hnodup := nodup_slots_cons hslots
    have ih := ih (q := q + 1) hnodup.1 fun p hp op hop => hdisj p hp op (hrest op hop)
    rw [interleave, List.map_append, List.map_append, List.nodup_append, List.nodup_append,
      List.map_map, List.map_map]
    refine ⟨hat q, ⟨?_, ih, ?_⟩, ?_⟩
    · cases slot with
      | none => exact List.nodup_nil
      | some u => exact List.nodup_singleton _
    · intro a ha b hb heq
      subst heq
      obtain ⟨op, hop, rfl⟩ := List.mem_map.mp ha
      obtain ⟨p, hp, heq⟩ := List.mem_map.mp hb
      have hop := Option.mem_toList.mp hop
      rcases later_of_mem_interleave hp with ⟨q', _, hq'⟩ | hp
      · exact hdisj _ hq' op (hslot op hop) heq
      · exact hnodup.2 op hop p.2 hp heq.symm
    · intro a ha b hb heq
      subst heq
      obtain ⟨op, hop, rfl⟩ := List.mem_map.mp ha
      have hop := mem_readsAt.mp hop
      rcases List.mem_append.mp hb with hb | hb
      · obtain ⟨u, hu, heq⟩ := List.mem_map.mp hb
        exact hdisj _ hop u (hslot u (Option.mem_toList.mp hu)) heq.symm
      · obtain ⟨p, hp, heq⟩ := List.mem_map.mp hb
        rcases later_of_mem_interleave hp with ⟨q', hlt, hq'⟩ | hp
        · have := congrArg Prod.fst (hsame _ hop _ hq' heq.symm)
          exact absurd this (Nat.ne_of_lt hlt)
        · exact hdisj _ hop p.2 (hrest _ hp) heq.symm

variable {O : Object σ In Out} {s : σ}

theorem map_label (m : Nat) (l : List (Operation Id In Out)) :
    (l.map (m, ·)).map (·.2) = l := by
  rw [List.map_map]
  exact List.map_id l

/-- The order is legal when the updates are and each read returns what the slots it
sees leave. -/
theorem interleave_legal (hslots : O.Legal s slots.reduceOption)
    (hreads : ∀ j op, (q + j, op) ∈ reads → O.step (O.run s (slots.take j).reduceOption) op.input =
      (O.run s (slots.take j).reduceOption, op.output)) :
    O.Legal s ((interleave reads q slots).map (·.2)) ∧
      O.run s ((interleave reads q slots).map (·.2)) = O.run s slots.reduceOption := by
  have hhere : O.Legal s (readsAt reads q) ∧ O.run s (readsAt reads q) = s :=
    Object.legal_reads fun op hop => hreads 0 op (mem_readsAt.mp hop)
  induction slots generalizing q s with
  | nil =>
    rw [interleave, map_label]
    exact hhere
  | cons slot rest ih =>
    rw [interleave, List.map_append, List.map_append, map_label, map_label, Object.legal_append,
      Object.run_append, hhere.2]
    have hstep : ∀ {s' : σ}, O.Legal s' rest.reduceOption →
        (∀ j, O.run s ((slot :: rest).take (j + 1)).reduceOption =
          O.run s' (rest.take j).reduceOption) →
        O.Legal s' ((interleave reads (q + 1) rest).map (·.2)) ∧
          O.run s' ((interleave reads (q + 1) rest).map (·.2)) = O.run s' rest.reduceOption := by
      intro s' hlegal hrun
      have hreads' : ∀ j op, (q + 1 + j, op) ∈ reads →
          O.step (O.run s' (rest.take j).reduceOption) op.input =
            (O.run s' (rest.take j).reduceOption, op.output) := by
        intro j op hop
        rw [← hrun j]
        exact hreads (j + 1) op (by rwa [show q + (j + 1) = q + 1 + j by omega])
      exact ih hlegal hreads' (Object.legal_reads fun op hop => hreads' 0 op (mem_readsAt.mp hop))
    cases slot with
    | none =>
      obtain ⟨hl, hr⟩ := hstep hslots fun j => rfl
      exact ⟨⟨hhere.1, hl⟩, hr⟩
    | some u =>
      obtain ⟨hl, hr⟩ := hstep hslots.2 fun j => rfl
      exact ⟨⟨hhere.1, hslots.1, hl⟩, hr⟩

/-- A prefix of the order leaves what a prefix of the slots leaves. -/
theorem interleave_initial (hreads : ∀ j op, (q + j, op) ∈ reads →
      O.step (O.run s (slots.take j).reduceOption) op.input =
        (O.run s (slots.take j).reduceOption, op.output)) (j : Nat) :
    ∃ S, S <+: (interleave reads q slots).map (·.2) ∧
      O.run s S = O.run s (slots.take j).reduceOption := by
  induction slots generalizing q s j with
  | nil => exact ⟨[], List.nil_prefix, by rw [List.take_nil]; rfl⟩
  | cons slot rest ih =>
    cases j with
    | zero => exact ⟨[], List.nil_prefix, rfl⟩
    | succ j =>
      have hrun : ∀ i, O.run s ((slot :: rest).take (i + 1)).reduceOption =
          O.run (O.run s slot.toList) (rest.take i).reduceOption := by
        intro i
        cases slot <;> rfl
      obtain ⟨S, hS, hSrun⟩ := ih (q := q + 1) (s := O.run s slot.toList)
        (fun i op hop => by
          rw [← hrun i]
          exact hreads (i + 1) op (by rwa [show q + (i + 1) = q + 1 + i by omega])) j
      have hhere : O.run s (readsAt reads q) = s :=
        (Object.legal_reads fun op hop => hreads 0 op (mem_readsAt.mp hop)).2
      refine ⟨readsAt reads q ++ (slot.toList ++ S), ?_, ?_⟩
      · rw [interleave, List.map_append, List.map_append, map_label, map_label]
        exact (List.prefix_append_right_inj _).mpr ((List.prefix_append_right_inj _).mpr hS)
      · rw [Object.run_append, hhere, Object.run_append, hSrun, hrun]

/-- The stamps of an operation allow it the place `m`. -/
structure Fits (trace : List (HistoryEvent Id In Out × Nat)) (m : Nat)
    (op : Operation Id In Out) : Prop where
  invoked : ∃ t, (.invoke op.id op.input, t) ∈ trace
  after : ∀ input t, (.invoke op.id input, t) ∈ trace → 2 * t < m
  before : ∀ out t, (.respond op.id out, t) ∈ trace → m ≤ 2 * t

/-- The interleaving of updates and reads explains the history when the stamps of every
operation allow it its place. -/
theorem linearizes_interleave {trace : List (HistoryEvent Id In Out × Nat)}
    (hsorted : trace.Pairwise fun a b => a.2 ≤ b.2)
    (hfits : ∀ p ∈ interleave reads 0 slots, Fits trace p.1 p.2)
    (honce : ((interleave reads 0 slots).map (·.2.id)).Nodup)
    (hcomplete : ∀ id out t, (.respond id out, t) ∈ trace →
      ∃ p ∈ interleave reads 0 slots, p.2.id = id ∧ p.2.output = out)
    (hlegal : O.Legal O.init ((interleave reads 0 slots).map (·.2))) :
    Linearizes O (trace.map (·.1)) ((interleave reads 0 slots).map (·.2)) where
  once := by
    rw [List.map_map]
    exact honce
  invoked op hop := by
    obtain ⟨p, hp, rfl⟩ := List.mem_map.mp hop
    obtain ⟨t, ht⟩ := (hfits p hp).invoked
    exact List.mem_map_of_mem (f := (·.1)) ht
  complete id out hm := by
    obtain ⟨⟨_, t⟩, ht, rfl⟩ := List.mem_map.mp hm
    obtain ⟨p, hp, hid, hout⟩ := hcomplete id out t ht
    exact ⟨p.2, List.mem_map_of_mem hp, hid, hout⟩
  legal := hlegal
  ordered := by
    rw [List.pairwise_map]
    refine interleave_sorted.imp_of_mem fun {a b} ha hb hab => ?_
    rintro ⟨i, j, out, input, hij, hi, hj⟩
    rw [List.getElem?_map] at hi hj
    obtain ⟨⟨_, t⟩, hi, rfl⟩ := Option.map_eq_some_iff.mp hi
    obtain ⟨⟨_, t'⟩, hj, rfl⟩ := Option.map_eq_some_iff.mp hj
    have hbefore := (hfits b hb).before out t (List.mem_of_getElem? hi)
    have hafter := (hfits a ha).after input t' (List.mem_of_getElem? hj)
    obtain ⟨hilt, hi⟩ := List.getElem?_eq_some_iff.mp hi
    obtain ⟨hjlt, hj⟩ := List.getElem?_eq_some_iff.mp hj
    have htt : t ≤ t' := by
      have := List.pairwise_iff_getElem.mp hsorted i j hilt hjlt hij
      rwa [hi, hj] at this
    omega

/-! ### Finding the reads -/

variable (O) in
/-- What the response `out` of `id` comes from: the update in one of the slots, or a
read of a prefix of them. -/
inductive Explained (trace : List (HistoryEvent Id In Out × Nat))
    (slots : List (Option (Operation Id In Out))) (id : Id) (out : Out) : Prop where
  | update (i : Nat) (input : In) (hslot : slots[i]? = some (some ⟨id, input, out⟩))
  | read (q : Nat) (input : In) (hq : q ≤ slots.length)
      (hstep : O.step (O.run O.init (slots.take q).reduceOption) input =
        (O.run O.init (slots.take q).reduceOption, out))
      (hfits : Fits trace (2 * q) ⟨id, input, out⟩)
      (hnew : ∀ op ∈ slots.reduceOption, op.id ≠ id)

/-- The operations that have responded. -/
def responses (trace : List (HistoryEvent Id In Out × Nat)) : List Id :=
  trace.filterMap fun e => match e.1 with
    | .respond id _ => some id
    | .invoke _ _ => none

theorem mem_responses {trace : List (HistoryEvent Id In Out × Nat)} {id : Id} :
    id ∈ responses trace ↔ ∃ out t, (.respond id out, t) ∈ trace := by
  rw [responses, List.mem_filterMap]
  constructor
  · rintro ⟨⟨e, t⟩, hm, he⟩
    cases e with
    | invoke _ _ => cases he
    | respond id' out =>
      cases he
      exact ⟨out, t, hm⟩
  · rintro ⟨out, t, hm⟩
    exact ⟨_, hm, rfl⟩

theorem responses_append (l m : List (HistoryEvent Id In Out × Nat)) :
    responses (l ++ m) = responses l ++ responses m := List.filterMap_append

theorem responses_invoke (id : Id) (input : In) (t : Nat) :
    responses [((.invoke id input, t) : HistoryEvent Id In Out × Nat)] = [] := rfl

theorem responses_respond (id : Id) (out : Out) (t : Nat) :
    responses [((.respond id out, t) : HistoryEvent Id In Out × Nat)] = [id] := rfl

/-- An operation responds once. -/
theorem respond_unique {trace : List (HistoryEvent Id In Out × Nat)} (h : (responses trace).Nodup)
    {id : Id} {out out' : Out} {t t' : Nat} (hm : (.respond id out, t) ∈ trace)
    (hm' : (.respond id out', t') ∈ trace) : out = out' ∧ t = t' := by
  induction trace with
  | nil => cases hm
  | cons e rest ih =>
    obtain ⟨e, s⟩ := e
    rw [← List.singleton_append, responses_append] at h
    have hrest := (List.nodup_append.mp h).2.1
    cases e with
    | invoke id' input =>
      rcases List.mem_cons.mp hm with heq | hm
      · cases heq
      · rcases List.mem_cons.mp hm' with heq | hm'
        · cases heq
        · exact ih hrest hm hm'
    | respond id' out'' =>
      have hfresh : ∀ o u, (HistoryEvent.respond id' o, u) ∉ rest := fun o u hin =>
        (List.nodup_cons.mp h).1 (mem_responses.mpr ⟨o, u, hin⟩)
      rcases List.mem_cons.mp hm with heq | hin
      · cases heq
        rcases List.mem_cons.mp hm' with heq | hin'
        · cases heq
          exact ⟨rfl, rfl⟩
        · exact absurd hin' (hfresh _ _)
      · rcases List.mem_cons.mp hm' with heq | hin'
        · cases heq
          exact absurd hin (hfresh _ _)
        · exact ih hrest hin hin'

/-! ### The next event of a trace -/

section Next
variable {trace : List (HistoryEvent Id In Out × Nat)} {id id' : Id} {input input' : In}
variable {out out' : Out} {t now : Nat}

theorem invoke_mem_invoke : (.invoke id input, t) ∈ trace ++ [(.invoke id' input', now)] ↔
    (.invoke id input, t) ∈ trace ∨ (id = id' ∧ input = input' ∧ t = now) := by
  simp [and_assoc]

theorem respond_mem_respond : (.respond id out, t) ∈ trace ++ [(.respond id' out', now)] ↔
    (.respond id out, t) ∈ trace ∨ (id = id' ∧ out = out' ∧ t = now) := by
  simp [and_assoc]

@[simp] theorem respond_mem_invoke :
    (.respond id out, t) ∈ trace ++ [(.invoke id' input', now)] ↔ (.respond id out, t) ∈ trace := by
  simp

@[simp] theorem invoke_mem_respond :
    (.invoke id input, t) ∈ trace ++ [(.respond id' out', now)] ↔ (.invoke id input, t) ∈ trace := by
  simp

theorem stamped_concat (hstamped : ∀ e ∈ trace, e.2 ≤ now) (e : HistoryEvent Id In Out) :
    ∀ e' ∈ trace ++ [(e, now)], e'.2 ≤ now := by
  intro e' he'
  rcases List.mem_append.mp he' with hold | hnew
  · exact hstamped e' hold
  · rw [List.mem_singleton.mp hnew]

/-- The events so far are not after the next one. -/
theorem sorted_concat (hsorted : trace.Pairwise fun a b => a.2 ≤ b.2)
    (hstamped : ∀ e ∈ trace, e.2 ≤ now) (e : HistoryEvent Id In Out) :
    (trace ++ [(e, now)]).Pairwise fun a b => a.2 ≤ b.2 := by
  refine List.pairwise_append.mpr ⟨hsorted, List.pairwise_singleton _ _, fun a ha b hb => ?_⟩
  rw [List.mem_singleton.mp hb]
  exact hstamped a ha

theorem responses_concat_invoke (h : (responses trace).Nodup) :
    (responses (trace ++ [(.invoke id input, now)])).Nodup := by
  rw [responses_append, responses_invoke, List.append_nil]
  exact h

/-- An operation that has not responded yet responds. -/
theorem responses_concat_respond (h : (responses trace).Nodup)
    (hopen : ∀ out t, (.respond id out, t) ∉ trace) :
    (responses (trace ++ [(.respond id out, now)])).Nodup := by
  rw [responses_append, responses_respond, ← List.concat_eq_append, List.nodup_concat]
  refine ⟨fun hm => ?_, h⟩
  obtain ⟨out', t, hm⟩ := mem_responses.mp hm
  exact hopen out' t hm

end Next

/-- A read that `Explained` speaks of. -/
structure GoodRead (O : Object σ In Out) (trace : List (HistoryEvent Id In Out × Nat))
    (slots : List (Option (Operation Id In Out))) (p : Nat × Operation Id In Out) : Prop where
  le : p.1 ≤ slots.length
  step : O.step (O.run O.init (slots.take p.1).reduceOption) p.2.input =
    (O.run O.init (slots.take p.1).reduceOption, p.2.output)
  fits : Fits trace (2 * p.1) p.2
  new : ∀ op ∈ slots.reduceOption, op.id ≠ p.2.id

/-- The responses of `part`, a part of the history, that no update accounts for. -/
theorem exists_reads {trace part : List (HistoryEvent Id In Out × Nat)}
    (honce : (responses part).Nodup)
    (hpart : ∀ id out t, (.respond id out, t) ∈ part → Explained O trace slots id out) :
    ∃ reads : List (Nat × Operation Id In Out), (reads.map (·.2.id)).Nodup ∧
      (∀ p ∈ reads, GoodRead O trace slots p ∧ p.2.id ∈ responses part) ∧
      ∀ id out t, (.respond id out, t) ∈ part →
        (∃ (i : Nat) (input : In), slots[i]? = some (some ⟨id, input, out⟩)) ∨
        ∃ p ∈ reads, p.2.id = id ∧ p.2.output = out := by
  induction part with
  | nil => exact ⟨[], List.nodup_nil, nofun, nofun⟩
  | cons e rest ih =>
    obtain ⟨e, t⟩ := e
    have hrest := fun id out t hm => hpart id out t (List.mem_cons_of_mem _ hm)
    cases e with
    | invoke id input =>
      obtain ⟨reads, hnodup, hgood, hall⟩ := ih honce hrest
      refine ⟨reads, hnodup, hgood, fun id out t hm => ?_⟩
      rcases List.mem_cons.mp hm with heq | hm
      · cases heq
      · exact hall id out t hm
    | respond id out =>
      obtain ⟨hfresh, honce⟩ := List.nodup_cons.mp honce
      obtain ⟨reads, hnodup, hgood, hall⟩ := ih honce hrest
      have hgood' : ∀ p ∈ reads, GoodRead O trace slots p ∧
          p.2.id ∈ responses ((.respond id out, t) :: rest) := fun p hp =>
        ⟨(hgood p hp).1, List.mem_cons_of_mem _ (hgood p hp).2⟩
      cases hpart id out t List.mem_cons_self with
      | update i input hslot =>
        refine ⟨reads, hnodup, hgood', fun id' out' t' hm => ?_⟩
        rcases List.mem_cons.mp hm with heq | hm
        · cases heq
          exact .inl ⟨i, input, hslot⟩
        · exact hall id' out' t' hm
      | read q input hq hstep hfits hnew =>
        refine ⟨(q, ⟨id, input, out⟩) :: reads, ?_, ?_, fun id' out' t' hm => ?_⟩
        · refine List.nodup_cons.mpr ⟨fun hm => ?_, hnodup⟩
          obtain ⟨p, hp, hid⟩ := List.mem_map.mp hm
          have hin := (hgood p hp).2
          rw [show p.2.id = id from hid] at hin
          exact hfresh hin
        · intro p hp
          rcases List.mem_cons.mp hp with rfl | hp
          · exact ⟨⟨hq, hstep, hfits, hnew⟩, List.mem_cons_self⟩
          · exact hgood' p hp
        · rcases List.mem_cons.mp hm with heq | hm
          · cases heq
            exact .inr ⟨_, List.mem_cons_self, rfl, rfl⟩
          · obtain h | ⟨p, hp, h⟩ := hall id' out' t' hm
            · exact .inl h
            · exact .inr ⟨p, List.mem_cons_of_mem _ hp, h⟩

/-- **Linearizability from a log.** The updates are legal in the order of their slots,
the stamps allow them their slots, and every response is explained. Then the history is
linearizable, by an order whose prefixes pass through the states after each slot. -/
theorem exists_linearization {trace : List (HistoryEvent Id In Out × Nat)}
    (hsorted : trace.Pairwise fun a b => a.2 ≤ b.2) (hresponses : (responses trace).Nodup)
    (honce : (slots.reduceOption.map (·.id)).Nodup)
    (hlegal : O.Legal O.init slots.reduceOption)
    (hfits : ∀ i op, slots[i]? = some (some op) → Fits trace (2 * i + 1) op)
    (hexplained : ∀ id out t, (.respond id out, t) ∈ trace → Explained O trace slots id out) :
    ∃ S, Linearizes O (trace.map (·.1)) S ∧ O.run O.init S = O.run O.init slots.reduceOption ∧
      ∀ j, ∃ S', S' <+: S ∧ O.run O.init S' = O.run O.init (slots.take j).reduceOption := by
  obtain ⟨reads, hnodup, hgood, hall⟩ := exists_reads hresponses hexplained
  have hreads : ∀ j op, (0 + j, op) ∈ reads →
      O.step (O.run O.init (slots.take j).reduceOption) op.input =
        (O.run O.init (slots.take j).reduceOption, op.output) := by
    intro j op hop
    rw [Nat.zero_add] at hop
    exact (hgood _ hop).1.step
  obtain ⟨hlegal', hrun⟩ := interleave_legal hlegal hreads
  refine ⟨_, linearizes_interleave hsorted ?_ ?_ ?_ hlegal', hrun, interleave_initial hreads⟩
  · intro p hp
    rcases mem_interleave.mp hp with ⟨j, _, hlabel, hop⟩ | ⟨j, hlabel, hop⟩
    · rw [Nat.zero_add] at hlabel hop
      rw [hlabel]
      exact (hgood _ hop).1.fits
    · rw [Nat.zero_add] at hlabel
      rw [hlabel]
      exact hfits j _ hop
  · exact interleave_once hnodup honce fun p hp op hop heq => (hgood p hp).1.new op hop heq.symm
  · intro id out t hm
    rcases hall id out t hm with ⟨i, input, hslot⟩ | ⟨p, hp, hid, hout⟩
    · exact ⟨(2 * (0 + i) + 1, _), mem_interleave.mpr (.inr ⟨i, rfl, hslot⟩), rfl, rfl⟩
    · refine ⟨(2 * (0 + p.1), p.2), mem_interleave.mpr (.inl ⟨p.1, (hgood p hp).1.le, rfl, ?_⟩),
        hid, hout⟩
      rw [Nat.zero_add]
      exact hp

end Interleave

end RaftLabs.Lib
