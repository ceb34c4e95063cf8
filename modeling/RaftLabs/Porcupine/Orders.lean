import Mathlib.Data.List.FinRange
import Mathlib.Data.List.TakeWhile
import RaftLabs.Porcupine.Linking

/-! What the checker decides: whether some order of the operations explains them.

An order explains a history when the model can take the operations one after the other, with their
outputs, and no operation is before one that had returned when it was called. The search goes from
set to set of operations; the orders it finds are the orders that explain the history. -/
namespace RaftLabs.Porcupine
open Lib
variable {σ ι ο : Type}

/-- The automaton can take the operations in this order. -/
def Automaton.Legal (model : Automaton σ ι ο) : σ → List (Operation ι ο) → Prop
  | _, [] => True
  | s, op :: rest =>
    (model.step s op.input op.output).1 = true ∧ model.Legal (model.step s op.input op.output).2 rest

structure Explains (model : Automaton σ ι ο) (history order : List (Operation ι ο)) : Prop where
  perm : order.Perm history
  legal : model.Legal model.init order
  ordered : order.Pairwise fun a b => ¬ b.ret < a.call

def Linearizable (model : Automaton σ ι ο) (history : List (Operation ι ο)) : Prop :=
  ∃ order, Explains model history order

/-- No operation returns before it is called. -/
def Timed (history : List (Operation ι ο)) : Prop := ∀ op ∈ history, op.call ≤ op.ret

/-! ### The entries of a history -/

section Entries
variable (history : List (Operation ι ο))

def callEntry (i : Fin history.length) : Entry ι ο :=
  ⟨.call (history.get i).input, i, (history.get i).call, (history.get i).clientId⟩

def returnEntry (i : Fin history.length) : Entry ι ο :=
  ⟨.ret (history.get i).output, i, (history.get i).ret, (history.get i).clientId⟩

variable {history} {sorter : Sorter ι ο} {e : Entry ι ο} {i j : Fin history.length}

@[simp] theorem isCall_callEntry : (callEntry history i).isCall = true := rfl

@[simp] theorem isCall_returnEntry : (returnEntry history i).isCall = false := rfl

@[simp] theorem id_callEntry : (callEntry history i).id = i := rfl

@[simp] theorem id_returnEntry : (returnEntry history i).id = i := rfl

theorem entriesOf_get :
    entriesOf (history.get i) i = [callEntry history i, returnEntry history i] := rfl

theorem mem_makeEntries :
    e ∈ makeEntries sorter history ↔ ∃ i, e = callEntry history i ∨ e = returnEntry history i := by
  rw [makeEntries, (sorter.perm _).mem_iff, List.mem_flatMap]
  constructor
  · rintro ⟨⟨op, k⟩, hop, he⟩
    obtain ⟨hk, hget⟩ := List.getElem?_eq_some_iff.mp (List.mem_zipIdx_iff_getElem?.mp hop)
    have hop : op = history.get ⟨k, hk⟩ := hget.symm
    have he : e ∈ entriesOf op k := he
    rw [hop, entriesOf_get (i := ⟨k, hk⟩)] at he
    exact ⟨⟨k, hk⟩, by simpa using he⟩
  · rintro ⟨i, he⟩
    refine ⟨(history.get i, i), List.mem_zipIdx_iff_getElem?.mpr (by simp), ?_⟩
    show e ∈ entriesOf (history.get i) i
    rw [entriesOf_get]
    simpa using he

theorem nodup_makeEntries : (makeEntries sorter history).Nodup := by
  refine (sorter.perm _).nodup_iff.mpr (List.pairwise_flatMap.mpr ⟨?_, ?_⟩)
  · rintro ⟨op, k⟩ -
    simp [entriesOf]
  · have hindices : (history.zipIdx.map Prod.snd).Nodup := by
      rw [List.zipIdx_map_snd]
      exact List.nodup_range'
    refine (List.pairwise_map.mp hindices).imp ?_
    rintro ⟨op, k⟩ ⟨op', k'⟩ hne a ha b hb rfl
    simp only [entriesOf, List.mem_cons, List.not_mem_nil, or_false] at ha hb
    refine hne ?_
    rcases ha with rfl | rfl <;> rcases hb with hb | hb <;> exact congrArg Entry.id hb

theorem length_makeEntries : (makeEntries sorter history).length = 2 * history.length := by
  rw [makeEntries, (sorter.perm _).length_eq, List.length_flatMap]
  simp [entriesOf, Nat.mul_comm]

/-- A return is before a call exactly if it is at an earlier time. -/
theorem less_return_call :
    less (returnEntry history j) (callEntry history i) =
      decide ((history.get j).ret < (history.get i).call) := by
  simp only [less, isCall_returnEntry, Bool.false_and]
  split
  · rfl
  · rename_i heq
    rw [Ne, not_not] at heq
    have hle : (history.get i).call ≤ (history.get j).ret := Int.le_of_eq heq.symm
    exact (decide_eq_false (Int.not_lt.mpr hle)).symm

theorem less_call_return :
    less (callEntry history i) (returnEntry history j) =
      decide (¬ (history.get j).ret < (history.get i).call) := by
  simp only [less, isCall_callEntry, isCall_returnEntry, Bool.not_false, Bool.and_true]
  show (if (history.get i).call ≠ (history.get j).ret then
    decide ((history.get i).call < (history.get j).ret) else true) = _
  split
  · rename_i hne
    simp only [decide_eq_decide]
    omega
  · rename_i heq
    rw [eq_comm, decide_eq_true_eq]
    omega

/-- The entries of a history whose operations return after they are called. -/
theorem paired_makeEntries (htimed : Timed history) (sorter : Sorter ι ο) :
    Paired (makeEntries sorter history) history.length where
  id_lt e he := by
    obtain ⟨i, rfl | rfl⟩ := mem_makeEntries.mp he
    · exact i.isLt
    · exact i.isLt
  other e he := by
    obtain ⟨i, rfl | rfl⟩ := mem_makeEntries.mp he
    · exact ⟨returnEntry history i, mem_makeEntries.mpr ⟨i, .inr rfl⟩, rfl, rfl⟩
    · exact ⟨callEntry history i, mem_makeEntries.mpr ⟨i, .inl rfl⟩, rfl, rfl⟩
  ordered := by
    refine (nodup_makeEntries.and (sorter.ordered _)).imp_of_mem ?_
    rintro a b ha hb ⟨hne, hless⟩ hid
    obtain ⟨i, hi⟩ := mem_makeEntries.mp ha
    obtain ⟨j, hj⟩ := mem_makeEntries.mp hb
    obtain rfl : i = j := by
      refine Fin.ext ?_
      rcases hi with rfl | rfl <;> rcases hj with rfl | rfl <;> exact hid
    rcases hi with rfl | rfl <;> rcases hj with rfl | rfl
    · exact absurd rfl hne
    · exact ⟨rfl, rfl⟩
    · rw [less_call_return, decide_eq_false_iff_not, not_not] at hless
      exact absurd hless (Int.not_lt.mpr (htimed _ (List.get_mem _ _)))
    · exact absurd rfl hne

end Entries

/-! ### Candidates -/

theorem mem_takeWhile_iff {f : Nat → Bool} {xs : List Nat} (hxs : xs.Pairwise (· > ·)) {p : Nat} :
    p ∈ xs.takeWhile f ↔ p ∈ xs ∧ ∀ q ∈ xs, p ≤ q → f q = true := by
  induction xs with
  | nil => simp
  | cons x xs ih =>
    obtain ⟨hgt, hrest⟩ := List.pairwise_cons.mp hxs
    rw [List.takeWhile_cons]
    split
    · rename_i hx
      rw [List.mem_cons, ih hrest, List.mem_cons]
      constructor
      · rintro (rfl | ⟨hmem, hall⟩)
        · refine ⟨.inl rfl, fun q hq hle => ?_⟩
          rcases List.mem_cons.mp hq with rfl | hmem
          · exact hx
          · exact absurd hle (Nat.not_le.mpr (hgt q hmem))
        · refine ⟨.inr hmem, fun q hq hle => ?_⟩
          rcases List.mem_cons.mp hq with rfl | hq
          · exact hx
          · exact hall q hq hle
      · rintro ⟨rfl | hmem, hall⟩
        · exact .inl rfl
        · exact .inr ⟨hmem, fun q hq => hall q (List.mem_cons_of_mem x hq)⟩
    · rename_i hx
      simp only [List.not_mem_nil, false_iff, not_and]
      intro hp hall
      refine hx (hall x List.mem_cons_self ?_)
      rcases List.mem_cons.mp hp with rfl | hmem
      · exact Nat.le_refl _
      · exact Nat.le_of_lt (hgt p hmem)

section Orders
variable {model : FullModel σ ι ο} {history : List (Operation ι ο)} {sorter : Sorter ι ο}
variable {b b' : Bitset} {s : σ} {p q : Ptr} {i j : Fin history.length}

variable (history) in
/-- Operation `j` has returned when operation `i` is called. -/
def Before (j i : Fin history.length) : Prop := (history.get j).ret < (history.get i).call

variable (model history sorter) in
/-- The search of `checkSingle` for a history. -/
abbrev historySearch : Search (Bitset × σ) Ptr :=
  searchOf model (heapOf (makeEntries sorter history))
    (nodesOf (makeEntries sorter history).length)

variable (history sorter) in
abbrev historyRemaining (b : Bitset) : List Ptr :=
  remaining (heapOf (makeEntries sorter history)) (nodesOf (makeEntries sorter history).length) b

variable (history sorter) in
/-- The node of an entry. -/
def IsNode (p : Ptr) (e : Entry ι ο) : Prop := (makeEntries sorter history).reverse[p]? = some e

theorem exists_callNode (i : Fin history.length) :
    ∃ p, IsNode history sorter p (callEntry history i) :=
  exists_node_of_mem (mem_makeEntries.mpr ⟨i, .inl rfl⟩)

theorem exists_returnNode (i : Fin history.length) :
    ∃ p, IsNode history sorter p (returnEntry history i) :=
  exists_node_of_mem (mem_makeEntries.mpr ⟨i, .inr rfl⟩)

theorem mem_historyRemaining {e : Entry ι ο} (hp : IsNode history sorter p e) :
    p ∈ historyRemaining history sorter b ↔ b.mem e.id = false := by
  rw [mem_remaining, (heapOf_node hp).2.1, Int.toNat_natCast, mem_nodesOf]
  exact and_iff_right (node_lt hp)

theorem exists_of_mem_historyRemaining (hp : p ∈ historyRemaining history sorter b) :
    ∃ i : Fin history.length, b.mem i = false ∧ (IsNode history sorter p (callEntry history i) ∨
      IsNode history sorter p (returnEntry history i)) := by
  obtain ⟨e, he⟩ := exists_node (mem_remaining.mp hp).1
  have hbit := (mem_historyRemaining he).mp hp
  obtain ⟨i, rfl | rfl⟩ := mem_makeEntries.mp (mem_of_node he)
  · exact ⟨i, hbit, .inl he⟩
  · exact ⟨i, hbit, .inr he⟩

/-- Of two nodes the one with the greater number is not later. -/
theorem less_node {e e' : Entry ι ο} (hp : IsNode history sorter p e)
    (hq : IsNode history sorter q e') (hlt : p < q) : less e e' = false := by
  have hordered : (makeEntries sorter history).reverse.Pairwise fun a b => less a b = false :=
    List.pairwise_reverse.mpr (sorter.ordered _)
  obtain ⟨hplt, rfl⟩ := List.getElem?_eq_some_iff.mp hp
  obtain ⟨hqlt, rfl⟩ := List.getElem?_eq_some_iff.mp hq
  exact List.pairwise_iff_getElem.mp hordered p q hplt hqlt hlt

theorem isCall_callNode (htimed : Timed history) (hp : IsNode history sorter p (callEntry history i)) :
    isCall (heapOf (makeEntries sorter history)) p = true := by
  obtain ⟨q, e', -, -, -, hmatch⟩ := (paired_makeEntries htimed sorter).exists_matching hp rfl
  rw [isCall, hmatch, Option.isSome_some]

theorem isCall_returnNode (hp : IsNode history sorter p (returnEntry history i)) :
    isCall (heapOf (makeEntries sorter history)) p = false := by
  rw [isCall, Paired.matching_ret hp rfl, Option.isSome_none]

/-- **The candidates** are the calls that no operation outside the set has to be before. -/
theorem mem_candidates_iff (htimed : Timed history)
    (hp : IsNode history sorter p (callEntry history i)) :
    p ∈ (historySearch model history sorter).candidates (b, s) ↔
      b.mem i = false ∧ ∀ j : Fin history.length, b.mem j = false → ¬ Before history j i := by
  have hsorted : (historyRemaining history sorter b).Pairwise (· > ·) :=
    (nodesOf_pairwise _).filter _
  show p ∈ (historyRemaining history sorter b).takeWhile _ ↔ _
  rw [mem_takeWhile_iff hsorted, mem_historyRemaining hp, id_callEntry]
  refine and_congr_right fun _ => ⟨fun hall j hj hbefore => ?_, fun hall q hq hle => ?_⟩
  · obtain ⟨q, hq⟩ : ∃ q, IsNode history sorter q (returnEntry history j) := exists_returnNode j
    have hcall := hall q ((mem_historyRemaining hq).mpr hj) (Nat.le_of_not_lt fun hlt => ?_)
    · rw [isCall_returnNode hq] at hcall
      cases hcall
    · have hless := less_node hq hp hlt
      rw [less_return_call, decide_eq_false_iff_not] at hless
      exact hless hbefore
  · obtain ⟨j, hj, hnode | hnode⟩ := exists_of_mem_historyRemaining hq
    · exact isCall_callNode htimed hnode
    · rcases Nat.eq_or_lt_of_le hle with rfl | hlt
      · exact isCall_callNode htimed hp
      · have hless := less_node hp hnode hlt
        rw [less_call_return, decide_eq_false_iff_not, not_not] at hless
        exact absurd hless (hall j hj)

/-- A candidate is the call of an operation. -/
theorem exists_of_mem_candidates
    (hp : p ∈ (historySearch model history sorter).candidates (b, s)) :
    ∃ i, IsNode history sorter p (callEntry history i) := by
  obtain ⟨i, -, hnode | hnode⟩ :=
    exists_of_mem_historyRemaining ((List.takeWhile_prefix _).subset hp)
  · exact ⟨i, hnode⟩
  · have hcall := List.mem_takeWhile_imp hp
    rw [isCall_returnNode hnode] at hcall
    cases hcall

theorem move_callNode (htimed : Timed history)
    (hp : IsNode history sorter p (callEntry history i)) {k : Bitset × σ} :
    (historySearch model history sorter).move (b, s) p = some k ↔
      (model.step s (history.get i).input (history.get i).output).1 = true ∧
      b.set i = some k.1 ∧
      k.2 = (model.step s (history.get i).input (history.get i).output).2 := by
  obtain ⟨r, hr⟩ : ∃ r, IsNode history sorter r (returnEntry history i) := exists_returnNode i
  have hmatch := (paired_makeEntries htimed sorter).matching_call hp hr rfl rfl rfl
  rw [move_eq_some, (heapOf_node hp).1, hmatch, (heapOf_node hp).2.1, Int.toNat_natCast]
  constructor
  · rintro ⟨input, output, m, hin, hm, hout, hrest⟩
    cases hin
    cases hm
    rw [(heapOf_node hr).1] at hout
    cases hout
    exact hrest
  · exact fun hrest => ⟨_, _, r, rfl, rfl, (heapOf_node hr).1, hrest⟩

/-! ### Paths and orders -/

variable (history) in
/-- The operations that are not in the set. -/
def missing (b : Bitset) : List (Fin history.length) :=
  (List.finRange history.length).filter fun i => !b.mem i

theorem mem_missing : i ∈ missing history b ↔ b.mem i = false := by simp [missing]

theorem missing_set (hset : b.set i = some b') (hi : b.mem i = false) :
    (missing history b).Perm (i :: missing history b') := by
  have hnodup : ∀ b, (missing history b).Nodup := fun b => (List.nodup_finRange _).filter _
  have hmem : i ∉ missing history b' := by
    rw [mem_missing, Bitset.mem_set hset]
    simp
  refine (List.perm_ext_iff_of_nodup (hnodup b) (List.nodup_cons.mpr ⟨hmem, hnodup b'⟩)).mpr ?_
  intro j
  rw [List.mem_cons, mem_missing, mem_missing, Bitset.mem_set hset, Bool.or_eq_false_iff,
    decide_eq_false_iff_not, Fin.val_inj]
  by_cases hji : j = i
  · simp [hji, hi]
  · simp [hji]

theorem finished_iff {k : Bitset × σ} :
    Finished (heapOf (makeEntries sorter history)) (nodesOf (makeEntries sorter history).length) k ↔
      missing history k.1 = [] := by
  show historyRemaining history sorter k.1 = [] ↔ _
  constructor
  · intro hempty
    refine List.eq_nil_iff_forall_not_mem.mpr fun i hi => ?_
    obtain ⟨p, hp⟩ : ∃ p, IsNode history sorter p (callEntry history i) := exists_callNode i
    have hmem := (mem_historyRemaining hp).mpr (mem_missing.mp hi)
    rw [hempty] at hmem
    cases hmem
  · intro hempty
    refine List.eq_nil_iff_forall_not_mem.mpr fun p hp => ?_
    obtain ⟨i, hi, -⟩ := exists_of_mem_historyRemaining hp
    have hmem := mem_missing.mpr hi
    rw [hempty] at hmem
    cases hmem

variable (model history) in
/-- An order of the operations that are not in the set, which the model can take from a state. -/
structure Completes (b : Bitset) (s : σ) (ids : List (Fin history.length)) : Prop where
  perm : ids.Perm (missing history b)
  legal : model.Legal s (ids.map history.get)
  ordered : ids.Pairwise fun i j => ¬ Before history j i

/-- From each set the search can finish exactly if the operations that are missing can be
ordered. -/
theorem solvable_iff_completes (htimed : Timed history) (hcapacity : history.length ≤ b.capacity) :
    (historySearch model history sorter).Solvable
      (Finished (heapOf (makeEntries sorter history)) (nodesOf (makeEntries sorter history).length))
      (b, s) ↔ ∃ ids, Completes model history b s ids := by
  constructor
  · rintro ⟨k, hpath, hfinished⟩
    clear hcapacity
    generalize hk : (b, s) = k₀ at hpath
    induction hpath using Relation.ReflTransGen.head_induction_on generalizing b s with
    | refl =>
      subst hk
      exact ⟨[], by rw [finished_iff.mp hfinished], trivial, .nil⟩
    | @head k₀ k₁ hmoves _ ih =>
      subst hk
      obtain ⟨p, hp, hmove⟩ := hmoves
      obtain ⟨i, hnode⟩ := exists_of_mem_candidates hp
      obtain ⟨hi, hfree⟩ := (mem_candidates_iff htimed hnode).mp hp
      obtain ⟨hok, hset, hstate⟩ := (move_callNode htimed hnode).mp hmove
      obtain ⟨ids, hids⟩ := ih rfl
      have hperm := (List.Perm.cons i hids.perm).trans (missing_set hset hi).symm
      refine ⟨i :: ids, hperm, ⟨hok, ?_⟩, List.pairwise_cons.mpr ⟨fun j hj => ?_, hids.ordered⟩⟩
      · rw [← hstate]
        exact hids.legal
      · exact hfree j (mem_missing.mp (hperm.subset (List.mem_cons_of_mem i hj)))
  · rintro ⟨ids, hids⟩
    induction ids generalizing b s with
    | nil => exact ⟨(b, s), .refl, finished_iff.mpr (List.nil_perm.mp hids.perm)⟩
    | cons i ids ih =>
      obtain ⟨hfree, hordered⟩ := List.pairwise_cons.mp hids.ordered
      have hi := mem_missing.mp (hids.perm.subset List.mem_cons_self)
      obtain ⟨b', hset⟩ := Bitset.exists_set (Nat.lt_of_lt_of_le i.isLt hcapacity)
      obtain ⟨p, hp⟩ : ∃ p, IsNode history sorter p (callEntry history i) := exists_callNode i
      have hcandidate : p ∈ (historySearch model history sorter).candidates (b, s) := by
        refine (mem_candidates_iff htimed hp).mpr ⟨hi, fun j hj => ?_⟩
        rcases List.mem_cons.mp (hids.perm.symm.subset (mem_missing.mpr hj)) with rfl | hmem
        · exact Int.not_lt.mpr (htimed _ (List.get_mem _ _))
        · exact hfree j hmem
      have hmove : (historySearch model history sorter).move (b, s) p =
          some (b', (model.step s (history.get i).input (history.get i).output).2) :=
        (move_callNode htimed hp).mpr ⟨hids.legal.1, hset, rfl⟩
      refine Search.solvable_iff.mpr (.inr ⟨_, ⟨p, hcandidate, hmove⟩, ?_⟩)
      refine ih ((Bitset.capacity_set hset).symm ▸ hcapacity) ⟨?_, hids.legal.2, hordered⟩
      exact (hids.perm.trans (missing_set hset hi)).cons_inv

/-- **The search decides linearizability.** -/
theorem solvable_iff_linearizable (htimed : Timed history) :
    (historySearch model history sorter).Solvable
      (Finished (heapOf (makeEntries sorter history)) (nodesOf (makeEntries sorter history).length))
      (newBitset history.length, model.init) ↔ Linearizable model.toAutomaton history := by
  have hmissing : missing history (newBitset history.length) = List.finRange history.length := by
    simp [missing]
  rw [solvable_iff_completes htimed (le_capacity_newBitset _)]
  constructor
  · rintro ⟨ids, hids⟩
    refine ⟨ids.map history.get, ?_, hids.legal, List.pairwise_map.mpr hids.ordered⟩
    have hperm := hids.perm.map history.get
    rwa [hmissing, List.map_get_finRange] at hperm
  · rintro ⟨order, horder⟩
    have hperm := horder.perm
    rw [← List.map_get_finRange history] at hperm
    have hcomp : Relation.Comp (· = List.map history.get ·) List.Perm order
        (List.finRange history.length) := by
      rw [List.eq_map_comp_perm]
      exact hperm
    obtain ⟨ids, rfl, hids⟩ := hcomp
    exact ⟨ids, hmissing ▸ hids, horder.legal, List.pairwise_map.mp horder.ordered⟩

end Orders
end RaftLabs.Porcupine
