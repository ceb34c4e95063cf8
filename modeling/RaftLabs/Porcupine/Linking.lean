import RaftLabs.Porcupine.Refinement

/-! The list that `makeLinkedEntries` builds.

Entries are linked from the last to the first, so the node of an entry is the number of entries
after it: node `p` is that of entry `p` of the reversed list, and a node is before another in the
list when its number is greater. The return of a call is looked up among the entries after it. -/
namespace RaftLabs.Porcupine
open Lib
variable {σ ι ο : Type}

/-- The nodes of so many entries. -/
def nodesOf (length : Nat) : List Ptr := (List.range length).reverse

@[simp] theorem mem_nodesOf {length : Nat} {p : Ptr} : p ∈ nodesOf length ↔ p < length := by
  simp [nodesOf]

theorem nodesOf_succ (length : Nat) : nodesOf (length + 1) = length :: nodesOf length := by
  simp [nodesOf, List.range_succ]

theorem nodesOf_pairwise (length : Nat) : (nodesOf length).Pairwise (· > ·) :=
  List.pairwise_reverse.mpr List.pairwise_lt_range

/-! ### New nodes -/

section Push
variable {h : Heap ι ο} {value : Option (EntryValue ι ο)} {m : Option Ptr} {id : Int}

@[simp] theorem insertBefore_value (h : Heap ι ο) (n : Ptr) (mark : Option Ptr) :
    (insertBefore h n mark).value = h.value := by
  unfold insertBefore
  split
  · rfl
  · dsimp only
    split <;> rfl

@[simp] theorem insertBefore_matching (h : Heap ι ο) (n : Ptr) (mark : Option Ptr) :
    (insertBefore h n mark).matching = h.matching := by
  unfold insertBefore
  split
  · rfl
  · dsimp only
    split <;> rfl

@[simp] theorem insertBefore_id (h : Heap ι ο) (n : Ptr) (mark : Option Ptr) :
    (insertBefore h n mark).id = h.id := by
  unfold insertBefore
  split
  · rfl
  · dsimp only
    split <;> rfl

@[simp] theorem insertBefore_size (h : Heap ι ο) (n : Ptr) (mark : Option Ptr) :
    (insertBefore h n mark).size = h.size := by
  unfold insertBefore
  split
  · rfl
  · dsimp only
    split <;> rfl

/-- A new node in front of a list. -/
theorem linked_push {length : Nat} (hl : h.links.Linked (nodesOf length)) (hsize : h.size = length)
    (value : Option (EntryValue ι ο)) (m : Option Ptr) (id : Int) :
    (insertBefore (h.alloc value m id).1 h.size (nodesOf length).head?).links.Linked
      (nodesOf (length + 1)) := by
  have hfresh : h.size ∉ nodesOf length := by simp [hsize]
  have hprev : ((h.links.setNext h.size none).setPrev h.size none).prev h.size = none :=
    Function.update_self _ _ _
  have hl' := hl.fresh hfresh none none
  rw [nodesOf_succ, ← hsize] at *
  cases hnodes : nodesOf h.size with
  | nil =>
    rw [List.head?_nil]
    exact Links.linked_singleton hprev (Function.update_self _ _ _)
  | cons q xs =>
    rw [hnodes] at hl' hfresh
    have hroot : (h.alloc value m id).1.prev q = none := hl'.first q rfl
    simp only [List.head?_cons, insertBefore, hroot]
    exact hl'.cons hfresh hprev

end Push

/-- The node of the first return of operation `id`. -/
def returnOf : List (Entry ι ο) → Nat → Option Ptr
  | [], _ => none
  | e :: rest, id => if e.isCall = false ∧ e.id = id then some rest.length else returnOf rest id

theorem returnOf_eq_some {es : List (Entry ι ο)} {id : Nat} {q : Ptr}
    (h : returnOf es id = some q) :
    ∃ r, es.reverse[q]? = some r ∧ r.isCall = false ∧ r.id = id := by
  induction es with
  | nil => cases h
  | cons e rest ih =>
    rw [returnOf] at h
    split at h
    · rename_i he
      cases h
      exact ⟨e, by simp, he⟩
    · obtain ⟨r, hr, hspec⟩ := ih h
      have hlt := (List.getElem?_eq_some_iff.mp hr).1
      exact ⟨r, by rw [List.reverse_cons, List.getElem?_append_left hlt, hr], hspec⟩

theorem returnOf_isSome {es : List (Entry ι ο)} {r : Entry ι ο} (hr : r ∈ es)
    (hret : r.isCall = false) : (returnOf es r.id).isSome = true := by
  induction es with
  | nil => cases hr
  | cons e rest ih =>
    rw [returnOf]
    split
    · rfl
    · rename_i he
      rcases List.mem_cons.mp hr with rfl | hmem
      · exact absurd ⟨hret, rfl⟩ he
      · exact ih hmem

/-- What `makeLinkedEntries` has built. -/
structure Linked (es : List (Entry ι ο)) (l : Linking ι ο) : Prop where
  size : l.heap.size = es.length
  root : l.root = (nodesOf es.length).head?
  links : l.heap.links.Linked (nodesOf es.length)
  node : ∀ p e, es.reverse[p]? = some e → l.heap.value p = some e.value ∧ l.heap.id p = e.id ∧
    l.heap.matching p = if e.isCall then returnOf (es.reverse.take p).reverse e.id else none
  returns : l.returns = returnOf es

theorem linked_linkEntries (es : List (Entry ι ο)) : Linked es (linkEntries es) := by
  induction es with
  | nil => exact ⟨rfl, rfl, Links.linked_nil _, by simp, rfl⟩
  | cons e rest ih =>
    have hnode : ∀ m : Option Ptr,
        (m = if e.isCall then returnOf rest e.id else none) →
        ∀ p e', (e :: rest).reverse[p]? = some e' →
        let h := insertBefore ((linkEntries rest).heap.alloc (some e.value) m e.id).1
          (linkEntries rest).heap.size (linkEntries rest).root
        h.value p = some e'.value ∧ h.id p = e'.id ∧ h.matching p =
          if e'.isCall then returnOf ((e :: rest).reverse.take p).reverse e'.id else none := by
      intro m hm p e' he'
      rw [List.reverse_cons] at he' ⊢
      simp only [insertBefore_value, insertBefore_id, insertBefore_matching, Heap.alloc, ih.size]
      rcases Nat.lt_or_ge p rest.length with hp | hp
      · rw [List.getElem?_append_left (by simpa using hp)] at he'
        rw [List.take_append_of_le_length (by simpa using hp.le)]
        simp only [Function.update_of_ne hp.ne]
        exact ih.node p e' he'
      · have hlt := (List.getElem?_eq_some_iff.mp he').1
        simp only [List.length_append, List.length_reverse, List.length_singleton] at hlt
        obtain rfl : p = rest.length := Nat.le_antisymm (Nat.lt_succ_iff.mp hlt) hp
        rw [List.getElem?_append_right (by simp), List.length_reverse, Nat.sub_self] at he'
        cases he'
        simp only [Function.update_self, hm]
        rw [List.take_left' (List.length_reverse), List.reverse_reverse]
        exact ⟨trivial, trivial, rfl⟩
    have hlinks := linked_push ih.links ih.size
    have hroot : (nodesOf (rest.length + 1)).head? = some (linkEntries rest).heap.size := by
      rw [nodesOf_succ, ih.size]
      rfl
    rw [← ih.root] at hlinks
    show Linked (e :: rest) (linkEntry e (linkEntries rest))
    cases hvalue : e.value with
    | ret output =>
      have hret : e.isCall = false := by simp [Entry.isCall, hvalue]
      simp only [linkEntry, hvalue]
      refine ⟨by simp [Heap.alloc, ih.size], hroot.symm, hlinks _ _ _, ?_, ?_⟩
      · rw [← hvalue]
        exact hnode none (by simp [hret])
      · funext id
        simp only [returnOf, hret, true_and, ih.returns]
        by_cases hid : e.id = id
        · subst hid
          simp [Heap.alloc, ih.size]
        · simp [Function.update_of_ne (Ne.symm hid), hid]
    | call input =>
      have hcall : e.isCall = true := by simp [Entry.isCall, hvalue]
      simp only [linkEntry, hvalue]
      refine ⟨by simp [Heap.alloc, ih.size], hroot.symm, hlinks _ _ _, ?_, ?_⟩
      · rw [← hvalue]
        exact hnode _ (by simp [hcall, ih.returns])
      · funext id
        simp only [returnOf, hcall, ih.returns]
        simp

/-- Counting a list gives its length. -/
theorem lengthIn_eq {h : Heap ι ο} {before xs : List Ptr} (hl : h.links.Linked (before ++ xs))
    {rounds : Nat} (hrounds : xs.length ≤ rounds) : lengthIn h rounds xs.head? = xs.length := by
  induction xs generalizing before rounds with
  | nil =>
    rw [List.head?_nil]
    cases rounds <;> rfl
  | cons p xs ih =>
    cases rounds with
    | zero => exact absurd hrounds (Nat.not_succ_le_zero _)
    | succ rounds =>
      have hnext : h.next p = xs.head? := hl.next_eq
      have hrest := ih (List.append_cons before p xs ▸ hl) (Nat.succ_le_succ_iff.mp hrounds)
      rw [List.head?_cons, lengthIn, hnext, hrest, List.length_cons]

/-! ### Entries that come in pairs -/

/-- Every operation has one call and one return, the call first. -/
structure Paired (es : List (Entry ι ο)) (n : Nat) : Prop where
  id_lt : ∀ e ∈ es, e.id < n
  other : ∀ e ∈ es, ∃ e' ∈ es, e'.id = e.id ∧ e'.isCall = !e.isCall
  ordered : es.Pairwise fun a b => a.id = b.id → a.isCall = true ∧ b.isCall = false

/-- The heap `checkSingle` works with: the entries and the node in front of them. -/
def heapOf (es : List (Entry ι ο)) : Heap ι ο :=
  insertBefore ((linkEntries es).heap.alloc none none (-1)).1 (linkEntries es).heap.size
    (linkEntries es).root

section Paired
variable {es : List (Entry ι ο)} {n : Nat} {p q : Ptr} {e e' : Entry ι ο}

theorem mem_of_node (hp : es.reverse[p]? = some e) : e ∈ es :=
  List.mem_reverse.mp (List.mem_of_getElem? hp)

theorem node_lt (hp : es.reverse[p]? = some e) : p < es.length := by
  have hlt := (List.getElem?_eq_some_iff.mp hp).1
  rwa [List.length_reverse] at hlt

theorem exists_node (hp : p ∈ nodesOf es.length) : ∃ e, es.reverse[p]? = some e :=
  ⟨_, List.getElem?_eq_getElem (by simpa using hp)⟩

theorem exists_node_of_mem (he : e ∈ es) : ∃ p : Ptr, es.reverse[p]? = some e :=
  List.getElem?_of_mem (List.mem_reverse.mpr he)

/-- The fields of a node. -/
theorem heapOf_node (hp : es.reverse[p]? = some e) :
    (heapOf es).value p = some e.value ∧ (heapOf es).id p = e.id ∧
      (heapOf es).matching p =
        if e.isCall then returnOf (es.reverse.take p).reverse e.id else none := by
  have hlinked := linked_linkEntries es
  have hne : p ≠ (linkEntries es).heap.size := by
    rw [hlinked.size]
    exact Nat.ne_of_lt (node_lt hp)
  simp only [heapOf, insertBefore_value, insertBefore_id, insertBefore_matching, Heap.alloc,
    Function.update_of_ne hne]
  exact hlinked.node p e hp

theorem heapOf_linked (es : List (Entry ι ο)) :
    (heapOf es).links.Linked (es.length :: nodesOf es.length) := by
  have hlinked := linked_linkEntries es
  have hpush := linked_push hlinked.links hlinked.size none none (-1)
  rw [← hlinked.root, nodesOf_succ] at hpush
  exact hpush

namespace Paired

/-- Nodes of one operation: the call is before the return, so its number is greater. -/
theorem kinds (hes : Paired es n) (hp : es.reverse[p]? = some e) (hq : es.reverse[q]? = some e')
    (hid : e.id = e'.id) (hlt : p < q) : e.isCall = false ∧ e'.isCall = true := by
  have hpairwise := List.pairwise_reverse.mpr hes.ordered
  obtain ⟨hplt, rfl⟩ := List.getElem?_eq_some_iff.mp hp
  obtain ⟨hqlt, rfl⟩ := List.getElem?_eq_some_iff.mp hq
  exact (List.pairwise_iff_getElem.mp hpairwise p q hplt hqlt hlt hid.symm).symm

theorem node_unique (hes : Paired es n) (hp : es.reverse[p]? = some e)
    (hq : es.reverse[q]? = some e') (hid : e.id = e'.id) (hkind : e.isCall = e'.isCall) :
    p = q := by
  rcases Nat.lt_trichotomy p q with hlt | heq | hgt
  · obtain ⟨hret, hcall⟩ := hes.kinds hp hq hid hlt
    rw [hret, hcall] at hkind
    cases hkind
  · exact heq
  · obtain ⟨hret, hcall⟩ := hes.kinds hq hp hid.symm hgt
    rw [hret, hcall] at hkind
    cases hkind

/-- A call is linked to its return. -/
theorem matching_call (hes : Paired es n) (hp : es.reverse[p]? = some e)
    (hq : es.reverse[q]? = some e') (hid : e'.id = e.id) (hcall : e.isCall = true)
    (hret : e'.isCall = false) : (heapOf es).matching p = some q := by
  have hlt : q < p := by
    rcases Nat.lt_trichotomy p q with hlt | heq | hgt
    · have hkinds := hes.kinds hp hq hid.symm hlt
      rw [hkinds.1] at hcall
      cases hcall
    · subst heq
      rw [hp] at hq
      cases hq
      rw [hcall] at hret
      cases hret
    · exact hgt
  have hmem : e' ∈ (es.reverse.take p).reverse := by
    refine List.mem_reverse.mpr (List.mem_of_getElem? (i := q) ?_)
    rw [List.getElem?_take_of_lt hlt]
    exact hq
  rw [(heapOf_node hp).2.2, if_pos hcall, ← hid]
  obtain ⟨q', hq'⟩ := Option.isSome_iff_exists.mp (returnOf_isSome hmem hret)
  obtain ⟨r, hr, hrret, hrid⟩ := returnOf_eq_some hq'
  rw [List.reverse_reverse, List.getElem?_take] at hr
  split at hr
  · rw [hq', hes.node_unique hr hq hrid (hrret.trans hret.symm)]
  · cases hr

theorem matching_ret (hp : es.reverse[p]? = some e) (hret : e.isCall = false) :
    (heapOf es).matching p = none := by
  rw [(heapOf_node hp).2.2, hret]
  rfl

/-- Every call has its return. -/
theorem exists_matching (hes : Paired es n) (hp : es.reverse[p]? = some e)
    (hcall : e.isCall = true) : ∃ q e', es.reverse[q]? = some e' ∧ e'.id = e.id ∧
      e'.isCall = false ∧ (heapOf es).matching p = some q := by
  obtain ⟨e', he', hid, hkind⟩ := hes.other e (mem_of_node hp)
  rw [hcall, Bool.not_true] at hkind
  obtain ⟨q, hq⟩ := exists_node_of_mem he'
  exact ⟨q, e', hq, hid, hkind, hes.matching_call hp hq hid hcall hkind⟩

/-- **The list is laid out** for the search. -/
theorem laid (hes : Paired es n) : Laid (heapOf es) es.length (nodesOf es.length) n where
  linked := heapOf_linked es
  id_lt p hp := by
    obtain ⟨e, he⟩ := exists_node hp
    rw [(heapOf_node he).2.1, Int.toNat_natCast]
    exact hes.id_lt e (mem_of_node he)
  call p hp m hm := by
    obtain ⟨e, he⟩ := exists_node hp
    have hcall : e.isCall = true := by
      by_contra hret
      rw [matching_ret he (Bool.eq_false_of_not_eq_true hret)] at hm
      cases hm
    obtain ⟨q, e', hq, hid, hret, hmatch⟩ := hes.exists_matching he hcall
    rw [hmatch] at hm
    cases hm
    refine ⟨mem_nodesOf.mpr (node_lt hq), matching_ret hq hret, ?_, ?_⟩
    · rw [(heapOf_node hq).2.1, (heapOf_node he).2.1, hid]
    · rw [(heapOf_node he).1, (heapOf_node hq).1]
      cases hv : e.value with
      | ret output => simp [Entry.isCall, hv] at hcall
      | call input =>
        cases hv' : e'.value with
        | call input' => simp [Entry.isCall, hv'] at hret
        | ret output => exact ⟨input, output, rfl, rfl⟩
  ret m hm hnone := by
    obtain ⟨e, he⟩ := exists_node hm
    obtain ⟨e', he', hid, hkind⟩ := hes.other e (mem_of_node he)
    obtain ⟨q, hq⟩ := exists_node_of_mem he'
    have hret : e.isCall = false := by
      by_contra hcall
      obtain ⟨_, _, -, -, -, hsome⟩ := hes.exists_matching he (Bool.eq_true_of_not_eq_false hcall)
      rw [hnone] at hsome
      cases hsome
    rw [hret, Bool.not_false] at hkind
    exact ⟨q, mem_nodesOf.mpr (node_lt hq), hes.matching_call hq he hid.symm hkind hret⟩
  unique p hp q hq hid := by
    obtain ⟨e, he⟩ := exists_node hp
    obtain ⟨e', he'⟩ := exists_node hq
    rw [(heapOf_node he).2.1, (heapOf_node he').2.1, Int.toNat_natCast, Int.toNat_natCast] at hid
    cases hcall : e.isCall <;> cases hcall' : e'.isCall
    · exact .inl (hes.node_unique he' he hid.symm (hcall'.trans hcall.symm))
    · exact .inr (.inr (hes.matching_call he' he hid hcall' hcall))
    · exact .inr (.inl (hes.matching_call he he' hid.symm hcall hcall'))
    · exact .inl (hes.node_unique he' he hid.symm (hcall'.trans hcall.symm))

end Paired

/-- `checkSingle` starts at the empty set, in front of the first entry. -/
theorem startSingle_sim (hlength : es.length = 2 * n)
    (model : FullModel σ ι ο) :
    Sim model (heapOf es) es.length (nodesOf es.length) n (newBitset n, model.init)
      (startSingle model es)
      ((searchOf model (heapOf es) (nodesOf es.length)).start (newBitset n, model.init)) := by
  have hlinked := linked_linkEntries es
  have hcount : length (linkEntries es).heap (linkEntries es).root / 2 = n := by
    have hlinks : (linkEntries es).heap.links.Linked ([] ++ nodesOf es.length) := hlinked.links
    rw [length, hlinked.root, lengthIn_eq hlinks (by simp [nodesOf, hlinked.size])]
    simp [nodesOf, hlength]
  have hstart : startSingle model es =
      { heap := heapOf es
        headEntry := es.length
        entry := (nodesOf es.length).head?
        linearized := newBitset n
        cache := fun _ => []
        calls := []
        longest := List.replicate n none
        state := model.init } := by
    rw [← hlinked.root]
    simp only [startSingle, makeLinkedEntries, heapOf, hcount, Heap.alloc, hlinked.size]
  have hremaining : remaining (heapOf es) (nodesOf es.length) (newBitset n) =
      nodesOf es.length := by
    simp [remaining]
  rw [hstart]
  refine ⟨⟨_, rfl, ?_, .nil⟩, rfl, rfl, ⟨[], _, rfl, by simp, ?_, rfl⟩, fun _ _ => rfl,
    le_capacity_newBitset n, by simp, by simp⟩
  · rw [hremaining]
    exact heapOf_linked es
  · exact congrArg List.head? hremaining.symm

end Paired
end RaftLabs.Porcupine
