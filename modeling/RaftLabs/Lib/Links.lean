import Mathlib.Data.List.Chain
import Mathlib.Data.List.Nodup
import Mathlib.Logic.Function.Basic

/-! Doubly linked lists, and nodes that are taken out and put back.

A store is two functions, the links forwards and the links backwards. A node that is taken out
keeps its own links, so it can be put back as long as the store is what it was when the node was
taken out: taking out and putting back, in reverse order, restores the store itself. -/
namespace RaftLabs.Lib

structure Links (ι : Type) where
  next : ι → Option ι
  prev : ι → Option ι

namespace Links
variable {ι : Type}

section Update
variable [DecidableEq ι]

def setNext (l : Links ι) (p : ι) (q : Option ι) : Links ι :=
  { l with next := Function.update l.next p q }

def setPrev (l : Links ι) (p : ι) (q : Option ι) : Links ι :=
  { l with prev := Function.update l.prev p q }

/-- Takes node `p` out: the nodes beside it point at each other. -/
def unlink (l : Links ι) (p : ι) : Option (Links ι) :=
  (l.prev p).map fun a =>
    let l := l.setNext a (l.next p)
    match l.next p with
    | none => l
    | some b => l.setPrev b (l.prev p)

/-- Puts node `p` back: the nodes beside it point at `p`. -/
def relink (l : Links ι) (p : ι) : Option (Links ι) :=
  (l.prev p).map fun a =>
    let l := l.setNext a (some p)
    match l.next p with
    | none => l
    | some b => l.setPrev b (some p)

end Update

def Joined (l : Links ι) (p q : ι) : Prop := l.next p = some q ∧ l.prev q = some p

/-- The nodes of a list, from its first to its last. -/
structure Linked (l : Links ι) (xs : List ι) : Prop where
  nodup : xs.Nodup
  first : ∀ p ∈ xs.head?, l.prev p = none
  chain : xs.IsChain l.Joined
  last : ∀ p ∈ xs.getLast?, l.next p = none

theorem linked_nil (l : Links ι) : l.Linked [] where
  nodup := List.nodup_nil
  first _ h := nomatch h
  chain := .nil
  last _ h := nomatch h

theorem linked_singleton {l : Links ι} {p : ι} (hprev : l.prev p = none) (hnext : l.next p = none) :
    l.Linked [p] where
  nodup := List.nodup_singleton p
  first q hq := by
    cases hq
    exact hprev
  chain := .singleton p
  last q hq := by
    cases hq
    exact hnext

section Linked
variable {l l' : Links ι} {xs as bs : List ι} {a b p q r : ι} {R R' : ι → ι → Prop}

theorem isChain_cons_imp (h : (b :: bs).IsChain R)
    (himp : ∀ x ∈ b :: bs, ∀ y ∈ bs, R x y → R' x y) : (b :: bs).IsChain R' := by
  induction bs generalizing b with
  | nil => exact .singleton b
  | cons c bs ih =>
    obtain ⟨hbc, hrest⟩ := List.isChain_cons_cons.mp h
    refine List.isChain_cons_cons.mpr ⟨himp b List.mem_cons_self c List.mem_cons_self hbc, ?_⟩
    exact ih hrest fun x hx y hy =>
      himp x (List.mem_cons_of_mem b hx) y (List.mem_cons_of_mem c hy)

theorem isChain_concat_imp (h : (as ++ [a]).IsChain R)
    (himp : ∀ x ∈ as, ∀ y ∈ as ++ [a], R x y → R' x y) : (as ++ [a]).IsChain R' := by
  rw [List.isChain_append] at h ⊢
  obtain ⟨hchain, -, hjoin⟩ := h
  refine ⟨hchain.imp_of_mem_imp fun x y hx hy => himp x hx y (List.mem_append_left _ hy),
    .singleton a, fun x hx y hy => ?_⟩
  exact himp x (List.mem_of_getLast? hx) y (List.mem_append_right _ (List.mem_of_head? hy))
    (hjoin x hx y hy)

/-- The links beside a node that has one before it. -/
theorem Linked.beside (h : l.Linked (as ++ a :: p :: bs)) :
    l.Joined a p ∧ l.next p = bs.head? ∧ ∀ b ∈ bs.head?, l.prev b = some p := by
  obtain ⟨-, hap, hrest⟩ := List.isChain_append_cons_cons.mp h.chain
  refine ⟨hap, ?_⟩
  cases bs with
  | nil => exact ⟨h.last p (by simp), fun _ hb => nomatch hb⟩
  | cons b bs =>
    obtain ⟨hpb, -⟩ := List.isChain_cons_cons.mp hrest
    refine ⟨hpb.1, fun b' hb' => ?_⟩
    cases hb'
    exact hpb.2

theorem Linked.ne_of_beside (h : l.Linked (as ++ a :: p :: bs)) : p ≠ a ∧ ∀ b ∈ bs, p ≠ b := by
  have hnodup := (List.nodup_append.mp h.nodup).2.1
  simp only [List.nodup_cons, List.mem_cons, not_or] at hnodup
  exact ⟨Ne.symm hnodup.1.1, fun b hb hpb => hnodup.2.1 (hpb ▸ hb)⟩

/-- The node after one of the list. -/
theorem Linked.next_eq (h : l.Linked (as ++ p :: bs)) : l.next p = bs.head? := by
  cases bs with
  | nil => exact h.last p (by simp)
  | cons b bs =>
    obtain ⟨-, hjoined, -⟩ := List.isChain_append_cons_cons.mp h.chain
    exact hjoined.1

variable [DecidableEq ι]

theorem Joined.setNext {o : Option ι} (h : l.Joined p q) (hp : p ≠ r) :
    (l.setNext r o).Joined p q :=
  ⟨(Function.update_of_ne hp _ _).trans h.1, h.2⟩

theorem Joined.setPrev {o : Option ι} (h : l.Joined p q) (hq : q ≠ r) :
    (l.setPrev r o).Joined p q :=
  ⟨h.1, (Function.update_of_ne hq _ _).trans h.2⟩

/-- The links of a node that is not in a list do not matter to it. -/
theorem Linked.fresh (h : l.Linked xs) (hp : p ∉ xs) (o o' : Option ι) :
    ((l.setNext p o).setPrev p o').Linked xs := by
  have hne : ∀ x ∈ xs, x ≠ p := fun x hx hxp => hp (hxp ▸ hx)
  refine ⟨h.nodup, fun x hx => ?_, ?_, fun x hx => ?_⟩
  · exact (Function.update_of_ne (hne x (List.mem_of_head? hx)) _ _).trans (h.first x hx)
  · exact h.chain.imp_of_mem_imp fun x y hx hy hj => (hj.setNext (hne x hx)).setPrev (hne y hy)
  · exact (Function.update_of_ne (hne x (List.mem_of_getLast? hx)) _ _).trans (h.last x hx)

/-- A new node in front of a list. -/
theorem Linked.cons (h : l.Linked (q :: xs)) (hp : p ∉ q :: xs) (hprev : l.prev p = none) :
    ((l.setPrev q (some p)).setNext p (some q)).Linked (p :: q :: xs) := by
  have hne : ∀ r ∈ q :: xs, r ≠ p := fun r hr hrp => hp (hrp ▸ hr)
  have hxs : ∀ r ∈ xs, r ≠ q := fun r hr hrq => (List.nodup_cons.mp h.nodup).1 (hrq ▸ hr)
  refine ⟨List.nodup_cons.mpr ⟨hp, h.nodup⟩, fun r hr => ?_, ?_, fun r hr => ?_⟩
  · cases hr
    exact (Function.update_of_ne (hne q List.mem_cons_self).symm _ _).trans hprev
  · refine List.isChain_cons_cons.mpr
      ⟨⟨Function.update_self _ _ _, Function.update_self _ _ _⟩, ?_⟩
    exact isChain_cons_imp h.chain fun x hx y hy hj => (hj.setPrev (hxs y hy)).setNext (hne x hx)
  · rw [List.getLast?_cons_cons] at hr
    exact (Function.update_of_ne (hne r (List.mem_of_getLast? hr)) _ _).trans (h.last r hr)

/-- What `unlink` does at the end of a list and within it. -/
theorem unlink_eq (h : l.Linked (as ++ a :: p :: bs)) :
    l.unlink p = some (match bs with
      | [] => l.setNext a none
      | b :: _ => (l.setNext a (some b)).setPrev b (some a)) := by
  obtain ⟨hap, hnext, -⟩ := h.beside
  have hkeep : (l.setNext a (l.next p)).next p = l.next p :=
    Function.update_of_ne h.ne_of_beside.1 _ _
  have hprev : (l.setNext a (l.next p)).prev p = some a := hap.2
  simp only [unlink, hap.2, Option.map_some, hkeep, hprev]
  rw [hnext]
  cases bs <;> rfl

/-- **Taking out a node** leaves a list of the others. -/
theorem Linked.unlink (h : l.Linked (as ++ a :: p :: bs)) (hunlink : l.unlink p = some l') :
    l'.Linked (as ++ a :: bs) := by
  rw [unlink_eq h] at hunlink
  obtain ⟨hbefore, -, hafter⟩ := List.isChain_append_cons_cons.mp h.chain
  have hnodup : (as ++ a :: bs).Nodup :=
    h.nodup.sublist (((List.sublist_cons_self p bs).cons_cons a).append_left as)
  obtain ⟨-, hcons, hdisjoint⟩ := List.nodup_append.mp hnodup
  obtain ⟨habs, hndbs⟩ := List.nodup_cons.mp hcons
  have has : ∀ x ∈ as, x ≠ a := fun x hx => hdisjoint x hx a List.mem_cons_self
  have hfirst : ∀ x ∈ (as ++ a :: bs).head?, l.prev x = none := by
    intro x hx
    refine h.first x ?_
    cases as <;> exact hx
  cases bs with
  | nil =>
    cases hunlink
    refine ⟨hnodup, hfirst, ?_, fun x hx => ?_⟩
    · exact isChain_concat_imp hbefore fun x hx _ _ hj => hj.setNext (has x hx)
    · simp only [List.getLast?_append, List.getLast?_singleton, Option.some_or] at hx
      cases hx
      exact Function.update_self _ _ _
  | cons b bs =>
    cases hunlink
    have hb : ∀ x ∈ as ++ [a], x ≠ b := by
      intro x hx hxb
      rw [List.append_cons, List.nodup_append] at hnodup
      exact hnodup.2.2 x hx b List.mem_cons_self hxb
    have hbbs : ∀ x ∈ bs, x ≠ b := fun x hx hxb => (List.nodup_cons.mp hndbs).1 (hxb ▸ hx)
    have ha : ∀ x ∈ b :: bs, x ≠ a := fun x hx hxa => habs (hxa ▸ hx)
    refine ⟨hnodup, fun x hx => ?_, ?_, fun x hx => ?_⟩
    · have hmem : x ∈ as ++ [a] := by
        cases as <;> cases hx <;> simp
      exact (Function.update_of_ne (hb x hmem) _ _).trans (hfirst x hx)
    · refine List.isChain_append_cons_cons.mpr
        ⟨?_, ⟨Function.update_self _ _ _, Function.update_self _ _ _⟩, ?_⟩
      · exact isChain_concat_imp hbefore fun x hx y hy hj =>
          (hj.setNext (has x hx)).setPrev (hb y hy)
      · exact isChain_cons_imp (List.isChain_cons_cons.mp hafter).2 fun x hx y hy hj =>
          (hj.setNext (ha x hx)).setPrev (hbbs y hy)
    · have hlast : (as ++ a :: b :: bs).getLast? = (b :: bs).getLast? := by
        simp [List.getLast?_append, List.getLast?_cons]
      rw [hlast] at hx
      refine (Function.update_of_ne (ha x (List.mem_of_getLast? hx)) _ _).trans (h.last x ?_)
      simpa [List.getLast?_append, List.getLast?_cons] using hx

/-- **Putting a node back** undoes taking it out. -/
theorem Linked.relink (h : l.Linked (as ++ a :: p :: bs)) (hunlink : l.unlink p = some l') :
    l'.relink p = some l := by
  obtain ⟨⟨hap, hpa⟩, hnext, hbs⟩ := h.beside
  obtain ⟨hne, hnebs⟩ := h.ne_of_beside
  have hnext' : Function.update l.next a (some p) = l.next := by
    rw [← hap, Function.update_eq_self]
  rw [unlink_eq h] at hunlink
  cases bs with
  | nil =>
    cases hunlink
    simp [Links.relink, Links.setNext, hpa, hnext, hnext']
  | cons b bs =>
    cases hunlink
    have hprev' : Function.update l.prev b (some p) = l.prev := by
      rw [← hbs b rfl, Function.update_eq_self]
    simp [Links.relink, Links.setNext, Links.setPrev,
      Function.update_of_ne (hnebs b List.mem_cons_self), hpa, hnext, hnext', hprev']

/-- A node that is taken out keeps its link forwards. -/
theorem Linked.next_unlink (h : l.Linked (as ++ a :: p :: bs)) (hunlink : l.unlink p = some l') :
    l'.next p = l.next p := by
  rw [unlink_eq h] at hunlink
  cases bs <;> cases hunlink <;> exact Function.update_of_ne h.ne_of_beside.1 _ _

/-- Any node but the first can be taken out and put back. -/
theorem Linked.erase (h : l.Linked (q :: xs)) (hp : p ∈ xs) :
    ∃ l', l.unlink p = some l' ∧ l'.Linked (q :: xs.erase p) ∧ l'.relink p = some l ∧
      l'.next p = l.next p := by
  obtain ⟨before, after, -, rfl, herase⟩ := List.exists_erase_eq hp
  obtain ⟨as, a, has⟩ := List.eq_nil_or_concat (q :: before) |>.resolve_left (List.cons_ne_nil _ _)
  have hxs : ∀ ys, q :: (before ++ ys) = as ++ a :: ys := by
    intro ys
    rw [← List.cons_append, has, List.concat_eq_append, List.append_assoc, List.singleton_append]
  rw [hxs] at h
  refine ⟨_, unlink_eq h, ?_⟩
  rw [herase, hxs]
  exact ⟨h.unlink (unlink_eq h), h.relink (unlink_eq h), h.next_unlink (unlink_eq h)⟩

end Linked
end Links
end RaftLabs.Lib
