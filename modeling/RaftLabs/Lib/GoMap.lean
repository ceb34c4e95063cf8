import Mathlib.Data.Finmap
import Mathlib.Data.List.Sort

/-! Go's maps: finite maps whose iteration order is not determined.

A map is a `Finmap`, so two maps with the same entries are equal. A `range` loop over a map
visits its keys in an order that may differ from loop to loop; a `RangeOrder` is one such
choice, made for every set of keys the loop might find. -/
namespace RaftLabs.Lib

/-- A Go `map[K]V`. -/
def GoMap (K V : Type) := Finmap fun _ : K => V

namespace GoMap
variable {K V : Type}

/-- The empty map, `make(map[K]V)`. -/
def empty : GoMap K V := (∅ : Finmap fun _ : K => V)

/-- The keys that are present. -/
def keys (m : GoMap K V) : Finset K := Finmap.keys m

/-- `len(m)`. -/
def len (m : GoMap K V) : Nat := m.keys.card

section Key
variable [DecidableEq K]

/-- The two-valued `v, exist := m[k]`. -/
def get? (m : GoMap K V) (k : K) : Option V := Finmap.lookup k m

/-- The one-valued `m[k]`, where `zero` is the zero value of `V`. -/
def getD (m : GoMap K V) (k : K) (zero : V) : V := (m.get? k).getD zero

/-- `m[k] = v`. -/
def set (m : GoMap K V) (k : K) (v : V) : GoMap K V := Finmap.insert k v m

/-- `delete(m, k)`. -/
def delete (m : GoMap K V) (k : K) : GoMap K V := Finmap.erase k m

/-- A map literal. -/
def ofList (l : List (K × V)) : GoMap K V := l.foldl (fun m p => m.set p.1 p.2) empty

instance [DecidableEq V] : DecidableEq (GoMap K V) :=
  inferInstanceAs (DecidableEq (Finmap fun _ : K => V))

variable {m m' : GoMap K V} {k k' : K} {v zero : V}

theorem ext_get? (h : ∀ k, m.get? k = m'.get? k) : m = m' := Finmap.ext_lookup h

theorem mem_keys : k ∈ m.keys ↔ (m.get? k).isSome :=
  Finmap.mem_keys.trans Finmap.lookup_isSome.symm

theorem get?_eq_none : m.get? k = none ↔ k ∉ m.keys := by
  rw [mem_keys, Option.not_isSome_iff_eq_none]

@[simp] theorem get?_empty : (empty : GoMap K V).get? k = none := Finmap.lookup_empty k

omit [DecidableEq K] in
@[simp] theorem keys_empty : (empty : GoMap K V).keys = ∅ := Finmap.keys_empty

theorem get?_set : (m.set k v).get? k' = if k' = k then some v else m.get? k' := by
  split
  · subst k'
    exact Finmap.lookup_insert m
  · exact Finmap.lookup_insert_of_ne m ‹_›

theorem get?_delete : (m.delete k).get? k' = if k' = k then none else m.get? k' := by
  split
  · subst k'
    exact Finmap.lookup_erase k m
  · exact Finmap.lookup_erase_ne ‹_›

theorem getD_set : (m.set k v).getD k' zero = if k' = k then v else m.getD k' zero := by
  rw [getD, get?_set]
  split <;> rfl

theorem mem_keys_set : k' ∈ (m.set k v).keys ↔ k' = k ∨ k' ∈ m.keys := by
  rw [mem_keys, mem_keys, get?_set]
  split <;> simp [*]

/-- Setting a key that is present. -/
theorem keys_set_of_mem (h : k ∈ m.keys) : (m.set k v).keys = m.keys := by
  ext k'
  rw [mem_keys_set]
  exact or_iff_right_of_imp fun heq => heq ▸ h

theorem mem_keys_delete : k' ∈ (m.delete k).keys ↔ k' ≠ k ∧ k' ∈ m.keys := by
  rw [mem_keys, mem_keys, get?_delete]
  split <;> simp [*]

theorem keys_delete : (m.delete k).keys = m.keys.erase k := by
  ext k'
  rw [mem_keys_delete, Finset.mem_erase]

theorem getD_delete_of_ne (h : k' ≠ k) : (m.delete k).getD k' zero = m.getD k' zero := by
  rw [getD, get?_delete, if_neg h, getD]

theorem delete_set : (m.set k v).delete k = m.delete k := by
  refine ext_get? fun k' => ?_
  rw [get?_delete, get?_delete, get?_set]
  split <;> rfl

theorem mem_keys_of_getD (h : m.getD k zero ≠ zero) : k ∈ m.keys := by
  rw [mem_keys]
  by_contra hnone
  rw [getD, Option.not_isSome_iff_eq_none.mp hnone] at h
  exact h rfl

/-! ### Filling a map in a loop -/

/-- Appending to the entries of distinct keys. -/
theorem get?_foldl_append {α : Type} (f : K → List α) {keys : List K} (hkeys : keys.Nodup)
    (m : GoMap K (List α)) (k : K) :
    (keys.foldl (fun m k => m.set k (m.getD k [] ++ f k)) m).get? k =
      if k ∈ keys then some (m.getD k [] ++ f k) else m.get? k := by
  induction keys generalizing m with
  | nil => rfl
  | cons key rest ih =>
    obtain ⟨hfresh, hrest⟩ := List.nodup_cons.mp hkeys
    rw [List.foldl_cons, ih hrest, getD_set, get?_set]
    by_cases hk : k = key
    · subst hk
      rw [if_neg hfresh, if_pos rfl, if_pos List.mem_cons_self]
    · rw [if_neg hk, if_neg hk]
      simp only [List.mem_cons, hk, false_or]

variable {α : Type} (f : α → K)

/-- Collecting a value of every element of a list in the entry of the element's key. -/
theorem getD_foldl_collect {β : Type} (g : α → β) (l : List α) (m : GoMap K (List β)) (k : K) :
    (l.foldl (fun m a => m.set (f a) (m.getD (f a) [] ++ [g a])) m).getD k [] =
      m.getD k [] ++ (l.filter (f · = k)).map g := by
  induction l generalizing m with
  | nil => exact (List.append_nil _).symm
  | cons a rest ih =>
    rw [List.foldl_cons, ih, getD_set, List.filter_cons]
    by_cases hk : f a = k
    · simp [hk]
    · simp [hk, Ne.symm hk]

theorem mem_keys_foldl_collect {β : Type} (g : α → β) (l : List α) (m : GoMap K (List β)) (k : K) :
    k ∈ (l.foldl (fun m a => m.set (f a) (m.getD (f a) [] ++ [g a])) m).keys ↔
      k ∈ m.keys ∨ ∃ a ∈ l, f a = k := by
  induction l generalizing m with
  | nil => simp
  | cons a rest ih =>
    rw [List.foldl_cons, ih, mem_keys_set]
    simp only [List.mem_cons, exists_eq_or_imp, or_assoc, eq_comm (a := k) (b := f a)]
    exact or_left_comm

/-- Sorting the elements of a list into the entries of a map. -/
theorem getD_foldl_group (l : List α) (m : GoMap K (List α)) (k : K) :
    (l.foldl (fun m a => m.set (f a) (m.getD (f a) [] ++ [a])) m).getD k [] =
      m.getD k [] ++ l.filter (f · = k) := by
  simpa using getD_foldl_collect f id l m k

theorem mem_keys_foldl_group (l : List α) (m : GoMap K (List α)) (k : K) :
    k ∈ (l.foldl (fun m a => m.set (f a) (m.getD (f a) [] ++ [a])) m).keys ↔
      k ∈ m.keys ∨ ∃ a ∈ l, f a = k :=
  mem_keys_foldl_collect f id l m k

variable (p : α → Prop) [DecidablePred p]

/-- Counting the elements of a list that satisfy `p`. -/
theorem getD_foldl_count (l : List α) (m : GoMap K Nat) (k : K) :
    (l.foldl (fun m a => if p a then m else m.set (f a) (m.getD (f a) 0 + 1)) m).getD k 0 =
      m.getD k 0 + l.countP (fun a => ¬ p a ∧ f a = k) := by
  induction l generalizing m with
  | nil => rfl
  | cons a rest ih =>
    rw [List.foldl_cons, ih, List.countP_cons]
    by_cases hp : p a
    · simp only [hp, if_true, not_true_eq_false, false_and, decide_false, Bool.false_eq_true,
        if_false, Nat.add_zero]
    · rw [if_neg hp, getD_set]
      by_cases hk : f a = k
      · subst hk
        simp only [hp, not_false_eq_true, and_self, decide_true, if_true]
        omega
      · rw [if_neg (Ne.symm hk)]
        simp only [hp, hk, not_false_eq_true, and_false, decide_false, Bool.false_eq_true, if_false,
          Nat.add_zero]

theorem mem_keys_foldl_count (l : List α) (m : GoMap K Nat) (k : K) :
    k ∈ (l.foldl (fun m a => if p a then m else m.set (f a) (m.getD (f a) 0 + 1)) m).keys ↔
      k ∈ m.keys ∨ ∃ a ∈ l, ¬ p a ∧ f a = k := by
  induction l generalizing m with
  | nil => simp
  | cons a rest ih =>
    rw [List.foldl_cons, ih]
    by_cases hp : p a
    · simp only [hp, if_true, List.mem_cons, exists_eq_or_imp, not_true_eq_false, false_and,
        false_or]
    · rw [if_neg hp, mem_keys_set]
      simp only [List.mem_cons, exists_eq_or_imp, hp, not_false_eq_true, true_and, or_assoc]
      rw [eq_comm]
      exact or_left_comm

end Key
end GoMap

/-- An order in which a `range` loop may visit the keys of a map. -/
structure RangeOrder (K : Type) where
  list : Finset K → List K
  nodup : ∀ s, (list s).Nodup
  mem : ∀ s k, k ∈ list s ↔ k ∈ s

namespace RangeOrder
variable {K : Type} (order : RangeOrder K)

@[simp] theorem mem_list {s : Finset K} {k : K} : k ∈ order.list s ↔ k ∈ s := order.mem s k

/-- Two orders visit the same keys. -/
theorem perm_list (order' : RangeOrder K) (s : Finset K) : (order.list s).Perm (order'.list s) :=
  (List.perm_ext_iff_of_nodup (order.nodup s) (order'.nodup s)).mpr fun k => by
    rw [order.mem, order'.mem]

/-- The other way round. -/
def reverse : RangeOrder K where
  list s := (order.list s).reverse
  nodup s := List.nodup_reverse.mpr (order.nodup s)
  mem s k := List.mem_reverse.trans (order.mem s k)

variable [LinearOrder K]

/-- Ascending order. -/
def sorted : RangeOrder K where
  list s := Quot.liftOn s.val (List.insertionSort (· ≤ ·)) fun a b h =>
    ((List.perm_insertionSort _ a).trans
      (h.trans (List.perm_insertionSort _ b).symm)).eq_of_pairwise'
        (List.pairwise_insertionSort _ a) (List.pairwise_insertionSort _ b)
  nodup := by
    rintro ⟨⟨l⟩, h⟩
    exact (List.perm_insertionSort _ l).nodup_iff.mpr h
  mem := by
    rintro ⟨⟨l⟩, h⟩ k
    exact (List.perm_insertionSort _ l).mem_iff

end RangeOrder
end RaftLabs.Lib
