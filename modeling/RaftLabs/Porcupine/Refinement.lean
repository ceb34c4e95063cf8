import Mathlib.Data.Finset.Card
import RaftLabs.Lib.Search
import RaftLabs.Porcupine.Checker

/-! `checkSingle` is a depth-first search over sets of calls and states.

The list in the heap holds the entries of the calls that are not in the set. Calls are taken out of
it and put back in the order of a stack, so the links are always those they were when the search
was at that set before. The cursor is after the candidates that were tried; those that are left are
the calls up to the next return. One round of the loop is one step of the search. -/
namespace RaftLabs.Porcupine
open Lib
variable {σ ι ο : Type}

/-! ### Taking calls out of the list -/

section Lift
variable {h : Heap ι ο} {p m : Ptr} {l l₁ l₂ : Links Ptr}

theorem lift_of_unlink (h₁ : h.links.unlink p = some l₁) (hnext : l₁.next p ≠ none)
    (hm : h.matching p = some m) (h₂ : l₁.unlink m = some l₂) :
    lift h p = some { h with links := l₂ } := by
  obtain ⟨a, ha, rfl⟩ := Option.map_eq_some_iff.mp h₁
  obtain ⟨a', ha', rfl⟩ := Option.map_eq_some_iff.mp h₂
  cases hn : (h.links.setNext a (h.links.next p)).next p with
  | none =>
    simp only [hn] at hnext
    exact absurd rfl hnext
  | some b =>
    simp only [hn] at ha'
    simp only [lift, Heap.prev, Heap.next, Heap.setNext, Heap.setPrev, ha, Option.bind_some, hn, hm,
      ha', Option.map_some, Option.some.injEq]
    split <;> rename_i hx <;> simp only [hx]

theorem unlift_of_relink (hm : h.matching p = some m) (h₁ : h.links.relink m = some l₁)
    (h₂ : l₁.relink p = some l) (hnext : l.next p ≠ none) :
    unlift h p = some { h with links := l } := by
  obtain ⟨a, ha, rfl⟩ := Option.map_eq_some_iff.mp h₁
  obtain ⟨a', ha', rfl⟩ := Option.map_eq_some_iff.mp h₂
  simp only [unlift, Heap.prev, Heap.next, Heap.setNext, Heap.setPrev, hm, ha, Option.bind_some]
  cases hn : (h.links.setNext a (some m)).next m with
  | none =>
    simp only [hn] at ha' hnext ⊢
    simp only [ha', Option.bind_some]
    cases hn' : ((h.links.setNext a (some m)).setNext a' (some p)).next p with
    | none =>
      simp only [hn'] at hnext
      exact absurd rfl hnext
    | some b => rfl
  | some b =>
    simp only [hn] at ha' hnext ⊢
    simp only [ha', Option.bind_some]
    cases hn' : (((h.links.setNext a (some m)).setPrev b (some m)).setNext a' (some p)).next p with
    | none =>
      simp only [hn'] at hnext
      exact absurd rfl hnext
    | some b' => rfl

/-- **A call and its return** can be taken out of a list and put back. -/
theorem lift_unlift {head : Ptr} {xs : List Ptr} (hl : h.links.Linked (head :: xs)) (hp : p ∈ xs)
    (hmem : m ∈ xs) (hne : m ≠ p) (hm : h.matching p = some m) (hnext : h.next p ≠ none) :
    ∃ l, lift h p = some { h with links := l } ∧ l.Linked (head :: (xs.erase p).erase m) ∧
      unlift { h with links := l } p = some h := by
  obtain ⟨l₁, h₁, hl₁, hback₁, hnext₁⟩ := hl.erase hp
  have hmem₁ : m ∈ xs.erase p := (List.mem_erase_of_ne hne).mpr hmem
  obtain ⟨l₂, h₂, hl₂, hback₂, -⟩ := hl₁.erase hmem₁
  refine ⟨l₂, lift_of_unlink h₁ (hnext₁ ▸ hnext) hm h₂, hl₂, ?_⟩
  exact unlift_of_relink (h := { h with links := l₂ }) hm hback₂ hback₁ hnext

end Lift

/-! ### The search -/

/-- The nodes of entries: each return is that of one call, which has its number. -/
structure Laid (h : Heap ι ο) (head : Ptr) (nodes : List Ptr) (n : Nat) : Prop where
  linked : h.links.Linked (head :: nodes)
  id_lt : ∀ p ∈ nodes, (h.id p).toNat < n
  call : ∀ p ∈ nodes, ∀ m, h.matching p = some m →
    m ∈ nodes ∧ h.matching m = none ∧ h.id m = h.id p ∧
    ∃ input output, h.value p = some (.call input) ∧ h.value m = some (.ret output)
  ret : ∀ m ∈ nodes, h.matching m = none → ∃ p ∈ nodes, h.matching p = some m
  unique : ∀ p ∈ nodes, ∀ q ∈ nodes, (h.id p).toNat = (h.id q).toNat →
    q = p ∨ h.matching p = some q ∨ h.matching q = some p

def isCall (h : Heap ι ο) (p : Ptr) : Bool := (h.matching p).isSome

/-- The nodes whose operations are not in the set. -/
def remaining (h : Heap ι ο) (nodes : List Ptr) (b : Bitset) : List Ptr :=
  nodes.filter fun p => !b.mem (h.id p).toNat

/-- A set of operations with the state after them: the calls before the first return can be next. -/
def searchOf (model : FullModel σ ι ο) (h : Heap ι ο) (nodes : List Ptr) :
    Search (Bitset × σ) Ptr where
  candidates k := (remaining h nodes k.1).takeWhile (isCall h)
  move k p :=
    match h.value p, (h.matching p).bind h.value with
    | some (.call input), some (.ret output) =>
      match model.step k.2 input output with
      | (true, newState) => (k.1.set (h.id p).toNat).map (·, newState)
      | (false, _) => none
    | _, _ => none

/-- Every operation is in the set. -/
def Finished (h : Heap ι ο) (nodes : List Ptr) (k : Bitset × σ) : Prop :=
  remaining h nodes k.1 = []

def same (model : FullModel σ ι ο) (k k' : Bitset × σ) : Bool :=
  k.1.equals k'.1 && model.equal k.2 k'.2

/-- States that are equal for the model can do the same. -/
def FullModel.Congruent (model : FullModel σ ι ο) : Prop :=
  ∀ {s t}, model.equal s t = true → ∀ input output, (model.step s input output).1 = true →
    (model.step t input output).1 = true ∧
    model.equal (model.step s input output).2 (model.step t input output).2 = true

section Laid
variable {model : FullModel σ ι ο} {h : Heap ι ο} {head : Ptr} {nodes : List Ptr} {n : Nat}
variable {b b' : Bitset} {p m : Ptr}

theorem mem_remaining : p ∈ remaining h nodes b ↔ p ∈ nodes ∧ b.mem (h.id p).toNat = false := by
  simp [remaining]

namespace Laid

theorem nodup (hl : Laid h head nodes n) : nodes.Nodup := (List.nodup_cons.mp hl.linked.nodup).2

/-- The return of a remaining call remains. -/
theorem matching_mem (hl : Laid h head nodes n) (hp : p ∈ remaining h nodes b)
    (hm : h.matching p = some m) : m ∈ remaining h nodes b ∧ h.matching m = none ∧ m ≠ p := by
  obtain ⟨hmem, hbit⟩ := mem_remaining.mp hp
  obtain ⟨hmnodes, hret, hid, -⟩ := hl.call p hmem m hm
  refine ⟨mem_remaining.mpr ⟨hmnodes, hid ▸ hbit⟩, hret, ?_⟩
  rintro rfl
  rw [hret] at hm
  cases hm

/-- There is a return among what remains. -/
theorem exists_return (hl : Laid h head nodes n) (hne : remaining h nodes b ≠ []) :
    ∃ m ∈ remaining h nodes b, isCall h m = false := by
  obtain ⟨p, hp⟩ := List.exists_mem_of_ne_nil _ hne
  cases hm : h.matching p with
  | none => exact ⟨p, hp, by simp [isCall, hm]⟩
  | some m =>
    obtain ⟨hmem, hret, -⟩ := hl.matching_mem hp hm
    exact ⟨m, hmem, by simp [isCall, hret]⟩

/-- Adding a call to the set takes it and its return from what remains. -/
theorem remaining_set (hl : Laid h head nodes n) (hp : p ∈ remaining h nodes b)
    (hm : h.matching p = some m) (hset : b.set (h.id p).toNat = some b') :
    remaining h nodes b' = ((remaining h nodes b).erase p).erase m := by
  have hnodup : (remaining h nodes b).Nodup := hl.nodup.filter _
  rw [(hnodup.erase p).erase_eq_filter, hnodup.erase_eq_filter, remaining, remaining,
    List.filter_filter, List.filter_filter]
  refine List.filter_congr fun q hq => ?_
  obtain ⟨hpmem, -⟩ := mem_remaining.mp hp
  obtain ⟨-, hret, hid, -⟩ := hl.call p hpmem m hm
  rw [Bitset.mem_set hset]
  have hiff : (h.id q).toNat = (h.id p).toNat ↔ q = p ∨ q = m := by
    constructor
    · intro heq
      rcases hl.unique p hpmem q hq heq.symm with rfl | hpq | hqp
      · exact .inl rfl
      · rw [hm] at hpq
        exact .inr (Option.some.inj hpq).symm
      · -- a call is not the return of another one
        obtain ⟨-, hnone, -⟩ := hl.call q hq p hqp
        rw [hnone] at hm
        cases hm
    · rintro (rfl | rfl)
      · rfl
      · rw [hid]
  by_cases hqp : q = p
  · simp [hqp]
  · by_cases hqm : q = m
    · simp [hqm, hid]
    · simp [hqp, hqm, mt hiff.mp (not_or.mpr ⟨hqp, hqm⟩)]

end Laid

/-- What a move of the search is. -/
theorem move_eq_some {k k' : Bitset × σ} :
    (searchOf model h nodes).move k p = some k' ↔ ∃ input output m,
      h.value p = some (.call input) ∧ h.matching p = some m ∧ h.value m = some (.ret output) ∧
      (model.step k.2 input output).1 = true ∧ k.1.set (h.id p).toNat = some k'.1 ∧
      k'.2 = (model.step k.2 input output).2 := by
  obtain ⟨b, s⟩ := k
  obtain ⟨b', s'⟩ := k'
  constructor
  · intro hmove
    simp only [searchOf] at hmove
    split at hmove
    · rename_i input output hin hout
      obtain ⟨m, hm, hvalue⟩ := Option.bind_eq_some_iff.mp hout
      split at hmove
      · rename_i newState hstep
        obtain ⟨b₁, hset, heq⟩ := Option.map_eq_some_iff.mp hmove
        cases heq
        exact ⟨input, output, m, hin, hm, hvalue, by rw [hstep], hset, by rw [hstep]⟩
      · cases hmove
    · cases hmove
  · rintro ⟨input, output, m, hin, hm, hout, hok, hset, rfl⟩
    simp only [searchOf, hin, hm, hout, Option.bind_some]
    split
    · rename_i newState hstep
      rw [hset, hstep]
      rfl
    · rename_i hstep
      rw [hstep] at hok
      cases hok

/-- Sets and states grow along moves, and the model cannot tell apart what is the same. -/
theorem graded (hl : Laid h head nodes n) (hequal : model.Congruent) :
    (searchOf model h nodes).Graded (Finished h nodes) (same model)
      (fun k => ((Finset.range n).filter fun i => k.1.mem i = true).card) n where
  rank_lt := by
    rintro k k' ⟨p, hp, hmove⟩
    obtain ⟨hpmem, hbit⟩ := mem_remaining.mp ((List.takeWhile_prefix _).subset hp)
    obtain ⟨input, output, m, -, -, -, -, hset, -⟩ := move_eq_some.mp hmove
    refine Finset.card_lt_card (Finset.ssubset_iff_of_subset ?_ |>.mpr ⟨(h.id p).toNat, ?_, ?_⟩)
    · intro i hi
      simp only [Finset.mem_filter] at hi ⊢
      exact ⟨hi.1, by rw [Bitset.mem_set hset, hi.2, Bool.true_or]⟩
    · simp [hl.id_lt p hpmem, Bitset.mem_set hset]
    · simp [hbit]
  rank_le := by
    rintro k k' -
    exact (Finset.card_filter_le _ _).trans_eq (Finset.card_range n)
  same_rank := by
    intro k k' hsame
    rw [Bitset.equals_iff.mp (Bool.and_eq_true_iff.mp hsame).1]
  same_solvable := by
    rintro k k' hsame ⟨goal, hpath, hgoal⟩
    induction hpath using Relation.ReflTransGen.head_induction_on generalizing k' with
    | refl =>
      refine ⟨k', .refl, ?_⟩
      rw [Finished, ← Bitset.equals_iff.mp (Bool.and_eq_true_iff.mp hsame).1]
      exact hgoal
    | @head k k₁ hmoves _ ih =>
      obtain ⟨p, hp, hmove⟩ := hmoves
      obtain ⟨hb, hstate⟩ := Bool.and_eq_true_iff.mp hsame
      have hb := Bitset.equals_iff.mp hb
      obtain ⟨input, output, m, hin, hm, hout, hok, hset, hnew⟩ := move_eq_some.mp hmove
      obtain ⟨hok', hequal'⟩ := hequal hstate input output hok
      have hmove' : (searchOf model h nodes).move k' p =
          some (k₁.1, (model.step k'.2 input output).2) :=
        move_eq_some.mpr ⟨input, output, m, hin, hm, hout, hok', hb ▸ hset, rfl⟩
      refine Search.solvable_iff.mpr (.inr ⟨_, ⟨p, ?_, hmove'⟩, ih ?_⟩)
      · show p ∈ (remaining h nodes k'.1).takeWhile (isCall h)
        rw [← hb]
        exact hp
      · rw [same, Bool.and_eq_true_iff, hnew]
        exact ⟨Bitset.equals_iff.mpr rfl, hequal'⟩

/-! ### One round of the loop is one step of the search -/

variable (model h head nodes) in
/-- The calls that were taken, the last one at the end: putting the last one back gives the list,
the set and the state of the search's frame, and its candidates are those after the call. -/
inductive Suspended (root : Bitset × σ) : Links Ptr → Bitset × σ → List (CallsEntry σ) →
    List ((Bitset × σ) × List Ptr) → Prop
  | nil {l} : Suspended root l root [] []
  | concat {l l₀ k b₀ calls stack entry state before after}
      (below : Suspended root l₀ (b₀, state) calls stack)
      (back : unlift { h with links := l } entry = some { h with links := l₀ })
      (linked : l₀.Linked (head :: remaining h nodes b₀))
      (move : (searchOf model h nodes).move (b₀, state) entry = some k)
      (split : remaining h nodes b₀ = before ++ entry :: after)
      (tried : ∀ p ∈ before ++ [entry], isCall h p = true) :
      Suspended root l k (calls ++ [⟨entry, state⟩])
        (((b₀, state), after.takeWhile (isCall h)) :: stack)

section Suspended
variable {root k : Bitset × σ} {l : Links Ptr} {calls : List (CallsEntry σ)}
variable {stack : List ((Bitset × σ) × List Ptr)}

/-- The calls that were taken are a path to the current node. -/
theorem Suspended.path (hs : Suspended model h head nodes root l k calls stack) :
    (searchOf model h nodes).Path root (calls.map (·.entry)) k := by
  induction hs with
  | nil => exact .nil
  | @concat l l₀ k b₀ calls stack entry state before after below back linked move split tried ih =>
    rw [List.map_append]
    refine .concat ih ?_ move
    show entry ∈ (remaining h nodes b₀).takeWhile (isCall h)
    rw [split, List.append_cons, List.takeWhile_append_of_pos tried]
    simp

/-- The last call that was taken. -/
theorem Suspended.last (hs : Suspended model h head nodes root l k calls stack)
    {top : CallsEntry σ} (htop : calls.getLast? = some top) :
    ∃ l₀ b₀ calls' stack' before after, calls = calls' ++ [top] ∧
      stack = ((b₀, top.state), after.takeWhile (isCall h)) :: stack' ∧
      Suspended model h head nodes root l₀ (b₀, top.state) calls' stack' ∧
      unlift { h with links := l } top.entry = some { h with links := l₀ } ∧
      l₀.Linked (head :: remaining h nodes b₀) ∧
      (searchOf model h nodes).move (b₀, top.state) top.entry = some k ∧
      remaining h nodes b₀ = before ++ top.entry :: after ∧
      ∀ p ∈ before ++ [top.entry], isCall h p = true := by
  cases hs with
  | nil => cases htop
  | concat below back linked move split tried =>
    rw [List.getLast?_concat] at htop
    cases htop
    exact ⟨_, _, _, _, _, _, rfl, rfl, below, back, linked, move, split, tried⟩

theorem Suspended.stack_eq_nil (hs : Suspended model h head nodes root l k calls stack)
    (hcalls : calls = []) : stack = [] := by
  cases hs with
  | nil => rfl
  | concat => simp at hcalls

end Suspended

/-- The numbers of the operations on a path from the root. -/
def Reported (model : FullModel σ ι ο) (h : Heap ι ο) (nodes : List Ptr) (root : Bitset × σ)
    (seq : List Int) : Prop :=
  ∃ ps k, (searchOf model h nodes).Path root ps k ∧ seq = ps.map h.id

theorem mem_nodes_of_path {root k : Bitset × σ} {ps : List Ptr}
    (hpath : (searchOf model h nodes).Path root ps k) (hp : p ∈ ps) : p ∈ nodes := by
  induction hpath with
  | nil => cases hp
  | concat _ candidate _ ih =>
    rcases List.mem_append.mp hp with hold | hnew
    · exact ih hold
    · rw [List.mem_singleton.mp hnew]
      exact (mem_remaining.mp ((List.takeWhile_prefix _).subset candidate)).1

/-- Remembering an order does not fail, and nothing else is remembered. -/
theorem improve_all {seq ids : List Int} (hids : ∀ id ∈ ids, id.toNat < n) {longest : Longest}
    (hlength : longest.length = n) :
    ∃ longest', ids.foldlM (improve seq) longest = some longest' ∧ longest'.length = n ∧
      ∀ l, some l ∈ longest' → l = seq ∨ some l ∈ longest := by
  induction ids generalizing longest with
  | nil => exact ⟨longest, rfl, hlength, fun _ hl => .inr hl⟩
  | cons id ids ih =>
    have hlt : id.toNat < longest.length := hlength ▸ hids id List.mem_cons_self
    have hset : ∀ l, some l ∈ longest.set id.toNat (some seq) → l = seq ∨ some l ∈ longest := by
      intro l hl
      rcases List.mem_or_eq_of_mem_set hl with hold | hnew
      · exact .inr hold
      · exact .inl (Option.some.inj hnew)
    have himprove : ∃ longest', improve seq longest id = some longest' ∧ longest'.length = n ∧
        ∀ l, some l ∈ longest' → l = seq ∨ some l ∈ longest := by
      rw [improve, List.getElem?_eq_getElem hlt]
      refine ⟨_, rfl, ?_⟩
      dsimp only
      split
      · exact ⟨by simpa using hlength, hset⟩
      · split
        · exact ⟨by simpa using hlength, hset⟩
        · exact ⟨hlength, fun _ hl => .inr hl⟩
    obtain ⟨longest₁, h₁, hlength₁, hmem₁⟩ := himprove
    obtain ⟨longest₂, h₂, hlength₂, hmem₂⟩ :=
      ih (fun id' hid' => hids id' (List.mem_cons_of_mem id hid')) hlength₁
    rw [List.foldlM_cons, h₁]
    refine ⟨longest₂, h₂, hlength₂, fun l hl => ?_⟩
    rcases hmem₂ l hl with rfl | hold
    · exact .inl rfl
    · exact hmem₁ l hold

/-- The variables of the loop and the state of the search. -/
structure Sim (model : FullModel σ ι ο) (h : Heap ι ο) (head : Ptr) (nodes : List Ptr) (n : Nat)
    (root : Bitset × σ) (s : CheckState σ ι ο) (st : Search.State (Bitset × σ) Ptr) : Prop where
  heap : ∃ l, s.heap = { h with links := l } ∧
    l.Linked (head :: remaining h nodes s.linearized) ∧
    Suspended model h head nodes root l (s.linearized, s.state) s.calls st.stack
  headEntry : s.headEntry = head
  current : st.current = (s.linearized, s.state)
  cursor : ∃ before after, remaining h nodes s.linearized = before ++ after ∧
    (∀ p ∈ before, isCall h p = true) ∧ s.entry = after.head? ∧
    st.rest = after.takeWhile (isCall h)
  cache : ∀ b state, cacheContains model s.cache ⟨b, state⟩ =
    st.visited.any (same model (b, state))
  capacity : n ≤ s.linearized.capacity
  length : s.longest.length = n
  reported : ∀ seq, some seq ∈ s.longest → Reported model h nodes root seq

namespace Sim
variable {s : CheckState σ ι ο} {st : Search.State (Bitset × σ) Ptr} {root : Bitset × σ}

/-- The node after one that remains. -/
theorem next_eq (hs : Sim model h head nodes n root s st) {before after : List Ptr}
    (hsplit : remaining h nodes s.linearized = before ++ p :: after) :
    s.heap.next p = after.head? := by
  obtain ⟨l, hheap, hlinked, -⟩ := hs.heap
  have hlinked' : l.Linked ((head :: before) ++ p :: after) := by
    rw [hsplit] at hlinked
    exact hlinked
  rw [hheap]
  exact hlinked'.next_eq

theorem next_head (hs : Sim model h head nodes n root s st) :
    s.heap.next s.headEntry = (remaining h nodes s.linearized).head? := by
  obtain ⟨l, hheap, hlinked, -⟩ := hs.heap
  have hlinked' : l.Linked ([] ++ head :: remaining h nodes s.linearized) := hlinked
  rw [hs.headEntry, hheap]
  exact hlinked'.next_eq

/-- The loop ends when every operation is in the set. -/
theorem next_head_eq_none (hs : Sim model h head nodes n root s st) :
    s.heap.next s.headEntry = none ↔ Finished h nodes st.current := by
  rw [hs.next_head, List.head?_eq_none_iff, hs.current]
  rfl

/-- Passing over the call at the cursor. -/
theorem skip (hs : Sim model h head nodes n root s st) {before after : List Ptr}
    (hsplit : remaining h nodes s.linearized = before ++ p :: after)
    (hbefore : ∀ q ∈ before, isCall h q = true) (hp : isCall h p = true) :
    Sim model h head nodes n root (s.skip p) { st with rest := after.takeWhile (isCall h) } where
  heap := hs.heap
  headEntry := hs.headEntry
  current := hs.current
  cursor := by
    refine ⟨before ++ [p], after, hsplit.trans (List.append_cons _ _ _), ?_, ?_, rfl⟩
    · intro q hq
      rcases List.mem_append.mp hq with hold | hnew
      · exact hbefore q hold
      · rw [List.mem_singleton.mp hnew]
        exact hp
    · exact hs.next_eq hsplit
  cache := hs.cache
  capacity := hs.capacity
  length := hs.length
  reported := hs.reported

/-- Taking the call at the cursor. -/
theorem take (hl : Laid h head nodes n) (hs : Sim model h head nodes n root s st)
    {before after : List Ptr} (hsplit : remaining h nodes s.linearized = before ++ p :: after)
    (hbefore : ∀ q ∈ before, isCall h q = true) (hm : h.matching p = some m)
    {newState : σ} (hmove : (searchOf model h nodes).move (s.linearized, s.state) p =
      some (b', newState)) :
    ∃ s', s.take p b' newState = some s' ∧
      Sim model h head nodes n root s' ⟨(b', newState), (searchOf model h nodes).candidates (b', newState),
        (st.current, after.takeWhile (isCall h)) :: st.stack, st.visited ++ [(b', newState)]⟩ := by
  obtain ⟨l, hheap, hlinked, hsuspended⟩ := hs.heap
  obtain ⟨-, -, -, -, -, -, -, hset, -⟩ := move_eq_some.mp hmove
  have hp : p ∈ remaining h nodes s.linearized := by
    rw [hsplit]
    simp
  have hpcall : isCall h p = true := by rw [isCall, hm, Option.isSome_some]
  obtain ⟨hmmem, hret, hne⟩ := hl.matching_mem hp hm
  -- the return is after the call, so the call has a node after it
  have hmafter : m ∈ after := by
    rw [hsplit] at hmmem
    rcases List.mem_append.mp hmmem with hold | hnew
    · have hcall := hbefore m hold
      rw [isCall, hret] at hcall
      cases hcall
    · exact (List.mem_cons.mp hnew).resolve_left hne
  have hnext : s.heap.next p ≠ none := by
    rw [hs.next_eq hsplit, Ne, List.head?_eq_none_iff]
    exact List.ne_nil_of_mem hmafter
  have hlinked' : s.heap.links.Linked (head :: remaining h nodes s.linearized) := by
    rw [hheap]
    exact hlinked
  have hm' : s.heap.matching p = some m := by
    rw [hheap]
    exact hm
  obtain ⟨l', hlift, hl', hback⟩ := lift_unlift hlinked' hp hmmem hne hm' hnext
  rw [hheap] at hlift hback
  have hlinked'' : l'.Linked (head :: remaining h nodes b') := by
    rw [hl.remaining_set hp hm hset]
    exact hl'
  have hfirst : l'.next head = (remaining h nodes b').head? :=
    (show l'.Linked ([] ++ head :: remaining h nodes b') from hlinked'').next_eq
  have htake : s.take p b' newState = some
      { s with
        cache := Function.update s.cache b'.hash (s.cache b'.hash ++ [⟨b', newState⟩])
        calls := s.calls ++ [⟨p, s.state⟩]
        state := newState
        linearized := b'
        heap := { h with links := l' }
        entry := l'.next head } := by
    simp only [CheckState.take, hheap, hset, hlift, hs.headEntry, Option.bind_some, Option.map_some]
    rfl
  refine ⟨_, htake, ⟨l', rfl, hlinked'', ?_⟩, hs.headEntry, rfl, ?_, fun b state => ?_, ?_,
    hs.length, hs.reported⟩
  · rw [hs.current]
    refine .concat hsuspended hback hlinked hmove hsplit fun q hq => ?_
    rcases List.mem_append.mp hq with hold | hnew
    · exact hbefore q hold
    · rw [List.mem_singleton.mp hnew]
      exact hpcall
  · exact ⟨[], _, rfl, fun _ hq => absurd hq List.not_mem_nil, hfirst, rfl⟩
  · rw [List.any_append, ← hs.cache b state, List.any_cons, List.any_nil, Bool.or_false]
    by_cases hhash : b.hash = b'.hash
    · simp [cacheContains, hhash, same]
    · have hdiffer : b.equals b' = false := by
        refine Bool.eq_false_iff.mpr fun heq => hhash ?_
        rw [Bitset.equals_iff.mp heq]
      simp [cacheContains, Function.update_of_ne hhash, same, hdiffer]
  · exact (Bitset.capacity_set hset).symm ▸ hs.capacity

theorem reported_seq (hs : Sim model h head nodes n root s st) :
    Reported model h nodes root s.seq := by
  obtain ⟨l, hheap, -, hsuspended⟩ := hs.heap
  refine ⟨_, _, hsuspended.path, ?_⟩
  rw [CheckState.seq, hheap, List.map_map]
  rfl

/-- Recording an order does not fail. -/
theorem recordPartial (hl : Laid h head nodes n) (hs : Sim model h head nodes n root s st) :
    ∃ longest, s.recordPartial = some longest ∧ longest.length = n ∧
      ∀ seq, some seq ∈ longest → Reported model h nodes root seq := by
  obtain ⟨ps, k, hpath, hseq⟩ := hs.reported_seq
  have hids : ∀ id ∈ s.seq, id.toNat < n := by
    intro id hid
    rw [hseq] at hid
    obtain ⟨p, hp, rfl⟩ := List.mem_map.mp hid
    exact hl.id_lt p (mem_nodes_of_path hpath hp)
  obtain ⟨longest, hrecord, hlength, hmem⟩ := improve_all hids hs.length
  refine ⟨longest, hrecord, hlength, fun seq hlongest => ?_⟩
  rcases hmem seq hlongest with rfl | hold
  · exact hs.reported_seq
  · exact hs.reported seq hold

/-- Taking back the last call. -/
theorem backtrack (hs : Sim model h head nodes n root s st) {top : CallsEntry σ}
    (htop : s.calls.getLast? = some top) {longest : Longest} (hlength : longest.length = n)
    (hreported : ∀ seq, some seq ∈ longest → Reported model h nodes root seq) :
    ∃ k rest stack s', st.stack = (k, rest) :: stack ∧
      { s with longest := longest }.backtrack top = some s' ∧
      Sim model h head nodes n root s' { st with current := k, rest := rest, stack := stack } := by
  obtain ⟨l, hheap, -, hsuspended⟩ := hs.heap
  obtain ⟨l₀, b₀, calls, stack, before, after, hcalls, hstack, hbelow, hunlift, hlinked, hmove,
    hsplit, htried⟩ := hsuspended.last htop
  obtain ⟨-, -, -, -, -, -, -, hset, -⟩ := move_eq_some.mp hmove
  have hmem : top.entry ∈ remaining h nodes b₀ := by
    rw [hsplit]
    simp
  have hclear := Bitset.clear_set hset (mem_remaining.mp hmem).2
  have hlinked' : l₀.Linked ((head :: before) ++ top.entry :: after) := by
    rw [hsplit] at hlinked
    exact hlinked
  have hback : { s with longest := longest }.backtrack top = some
      { s with
        state := top.state
        linearized := b₀
        calls := calls
        heap := { h with links := l₀ }
        entry := l₀.next top.entry
        longest := longest } := by
    simp only [CheckState.backtrack, hheap, hclear, hunlift, hcalls, Option.bind_some,
      Option.map_some, List.dropLast_concat]
    rfl
  refine ⟨_, _, _, _, hstack, hback, ⟨l₀, rfl, hlinked, hbelow⟩, hs.headEntry, rfl, ?_, hs.cache,
    ?_, hlength, hreported⟩
  · exact ⟨before ++ [top.entry], after, hsplit.trans (List.append_cons _ _ _), htried,
      hlinked'.next_eq, rfl⟩
  · exact Bitset.capacity_set hset ▸ hs.capacity

/-- A round at a call. -/
theorem atCall (hl : Laid h head nodes n) (hs : Sim model h head nodes n root s st)
    {before after : List Ptr} (hsplit : remaining h nodes s.linearized = before ++ p :: after)
    (hbefore : ∀ q ∈ before, isCall h q = true) (hm : h.matching p = some m)
    (hrest : st.rest = p :: after.takeWhile (isCall h)) :
    ∃ s' st', s.atCall model p m = some s' ∧
      (searchOf model h nodes).step (same model) st = some st' ∧
      Sim model h head nodes n root s' st' := by
  have hp : p ∈ nodes := by
    have hmem : p ∈ remaining h nodes s.linearized := by
      rw [hsplit]
      simp
    exact (mem_remaining.mp hmem).1
  have hpcall : isCall h p = true := by rw [isCall, hm, Option.isSome_some]
  obtain ⟨-, -, -, input, output, hin, hout⟩ := hl.call p hp m hm
  obtain ⟨b', hset⟩ := Bitset.exists_set (Nat.lt_of_lt_of_le (hl.id_lt p hp) hs.capacity)
  obtain ⟨l, hheap, -, -⟩ := hs.heap
  cases hstep : model.step s.state input output with
  | mk ok newState =>
    have hatCall : s.atCall model p m =
        if ok then if cacheContains model s.cache ⟨b', newState⟩ then some (s.skip p)
          else s.take p b' newState
        else some (s.skip p) := by
      simp only [CheckState.atCall, hheap, hin, hout, hstep, hset, Option.bind_some]
      cases ok <;> rfl
    have hmove : (searchOf model h nodes).move st.current p =
        if ok then some (b', newState) else none := by
      rw [hs.current]
      simp only [searchOf, hin, hm, hout, hstep, hset, Option.bind_some]
      cases ok <;> rfl
    rw [hatCall]
    cases ok with
    | false =>
      have hnone : (searchOf model h nodes).move st.current p = none := hmove
      simp only [Search.step, hrest, hnone]
      exact ⟨_, _, rfl, rfl, hs.skip hsplit hbefore hpcall⟩
    | true =>
      have hsome : (searchOf model h nodes).move st.current p = some (b', newState) := hmove
      simp only [Search.step, hrest, hsome, if_true, hs.cache b' newState]
      split
      · exact ⟨_, _, rfl, rfl, hs.skip hsplit hbefore hpcall⟩
      · rw [hs.current] at hsome
        obtain ⟨s', htake, hs'⟩ := hs.take hl hsplit hbefore hm hsome
        exact ⟨s', _, htake, rfl, hs'⟩

/-- A round at a return: the search has tried every candidate. -/
theorem atReturn (hl : Laid h head nodes n) (hs : Sim model h head nodes n root s st)
    (hrest : st.rest = []) (computePartial : Bool) :
    ((searchOf model h nodes).step (same model) st = none ∧
      s.atReturn computePartial = some (.returned false s.longest)) ∨
    ∃ s' st', s.atReturn computePartial = some (.running s') ∧
      (searchOf model h nodes).step (same model) st = some st' ∧
      Sim model h head nodes n root s' st' := by
  obtain ⟨l, -, -, hsuspended⟩ := hs.heap
  cases htop : s.calls.getLast? with
  | none =>
    have hstack := hsuspended.stack_eq_nil (List.getLast?_eq_none_iff.mp htop)
    refine .inl ⟨?_, ?_⟩
    · simp only [Search.step, hrest, hstack]
    · simp only [CheckState.atReturn, htop]
  | some top =>
    have hlongest : ∃ longest, (if computePartial then s.recordPartial else some s.longest) =
        some longest ∧ longest.length = n ∧
        ∀ seq, some seq ∈ longest → Reported model h nodes root seq := by
      cases computePartial with
      | false => exact ⟨s.longest, rfl, hs.length, hs.reported⟩
      | true => exact hs.recordPartial hl
    obtain ⟨longest, hrecord, hlength, hreported⟩ := hlongest
    obtain ⟨k, rest, stack, s', hstack, hback, hs'⟩ := hs.backtrack htop hlength hreported
    refine .inr ⟨s', { st with current := k, rest := rest, stack := stack }, ?_, ?_, hs'⟩
    · simp only [CheckState.atReturn, htop, hrecord, Option.bind_some, hback, Option.map_some]
    · simp only [Search.step, hrest, hstack]

/-- **One round of the loop is one step of the search**, unless the loop returns: when the search
is finished, when it is told to, or when the search has tried everything. -/
theorem iterate (hl : Laid h head nodes n) (hs : Sim model h head nodes n root s st)
    (computePartial kill : Bool) :
    (Finished h nodes st.current ∧ s.iterate model computePartial kill =
      some (.returned true (s.longest.map fun _ => some s.seq))) ∨
    (¬ Finished h nodes st.current ∧
      ((kill = true ∨ (searchOf model h nodes).step (same model) st = none) ∧
        s.iterate model computePartial kill = some (.returned false s.longest) ∨
      ∃ s' st', s.iterate model computePartial kill = some (.running s') ∧
        (searchOf model h nodes).step (same model) st = some st' ∧
        Sim model h head nodes n root s' st')) := by
  by_cases hfinished : Finished h nodes st.current
  · refine .inl ⟨hfinished, ?_⟩
    rw [CheckState.iterate, if_pos (hs.next_head_eq_none.mpr hfinished)]
  refine .inr ⟨hfinished, ?_⟩
  have hnext : s.heap.next s.headEntry ≠ none := mt hs.next_head_eq_none.mp hfinished
  cases kill with
  | true =>
    refine .inl ⟨.inl rfl, ?_⟩
    rw [CheckState.iterate, if_neg hnext, if_pos rfl]
  | false =>
    have hiterate : s.iterate model computePartial false =
        s.entry.bind (s.visit model computePartial) := by
      rw [CheckState.iterate, if_neg hnext, if_neg Bool.false_ne_true]
    obtain ⟨l, hheap, -, -⟩ := hs.heap
    obtain ⟨before, after, hsplit, hbefore, hentry, hrest⟩ := hs.cursor
    have hremain : remaining h nodes s.linearized ≠ [] := by
      rw [Finished, hs.current] at hfinished
      exact hfinished
    -- something is a return, and the entries before the cursor are calls
    obtain ⟨r, hr, hret⟩ := hl.exists_return hremain
    cases after with
    | nil =>
      rw [hsplit, List.append_nil] at hr
      rw [hbefore r hr] at hret
      cases hret
    | cons p after =>
      cases hm : h.matching p with
      | some m =>
        have hpcall : isCall h p = true := by rw [isCall, hm, Option.isSome_some]
        rw [List.takeWhile_cons, if_pos hpcall] at hrest
        obtain ⟨s', st', hat, hstep, hs'⟩ := hs.atCall hl hsplit hbefore hm hrest
        refine .inr ⟨s', st', ?_, hstep, hs'⟩
        simp only [hiterate, hentry, List.head?_cons, Option.bind_some, CheckState.visit, hheap, hm]
        rw [hat]
        rfl
      | none =>
        have hpret : ¬ isCall h p = true := by simp [isCall, hm]
        rw [List.takeWhile_cons, if_neg hpret] at hrest
        have heq : s.iterate model computePartial false = s.atReturn computePartial := by
          simp only [hiterate, hentry, List.head?_cons, Option.bind_some, CheckState.visit, hheap, hm]
        rw [heq]
        rcases hs.atReturn hl hrest computePartial with ⟨hnone, hat⟩ | ⟨s', st', hat, hstep, hs'⟩
        · exact .inl ⟨.inr hnone, hat⟩
        · exact .inr ⟨s', st', hat, hstep, hs'⟩

end Sim
end Laid
end RaftLabs.Porcupine
