import Mathlib.Data.List.Basic
import Mathlib.Data.List.Nodup
import Mathlib.Data.List.Perm.Basic
import Mathlib.Data.List.Sort
import Mathlib.Data.List.TakeWhile

/-! Grouping data by keys.

A list of keyed data is turned into one group for every key. There are several ways to do it:
sort the list and cut it into blocks of equal keys, or split it into parts by a hash of the key
and group every part on its own. They visit the keys in different orders and find the values of
a key in different orders; what is produced from every key and its values is the same, up to
order, when the values' order does not matter. -/
namespace RaftLabs.Lib.Grouping

variable {α K V β : Type} (key : α → K) (value : α → V)

/-- A list holds every key of the data once. -/
structure EachKey (l : List α) (ks : List K) : Prop where
  nodup : ks.Nodup
  mem_iff : ∀ k, k ∈ ks ↔ ∃ a ∈ l, key a = k

variable [DecidableEq K]

/-- The values of a key, in their order. -/
def valuesOf (l : List α) (k : K) : List V := (l.filter (key · = k)).map value

/-- The blocks of equal keys, from the front. -/
def blocks : List α → List (K × List V)
  | [] => []
  | a :: rest =>
    (key a, value a :: (rest.takeWhile (key · = key a)).map value) ::
      blocks (rest.dropWhile (key · = key a))
termination_by l => l.length
decreasing_by
  have := (List.dropWhile_sublist (key · = key a) (l := rest)).length_le
  simp only [List.length_cons]
  omega

variable {key value}

omit [DecidableEq K] in
theorem EachKey.perm {l : List α} {ks ks' : List K} (h : EachKey key l ks)
    (h' : EachKey key l ks') : ks.Perm ks' := by
  rw [List.perm_ext_iff_of_nodup h.nodup h'.nodup]
  simp only [h.mem_iff, h'.mem_iff, implies_true]

omit [DecidableEq K] in
theorem EachKey.of_perm {l l' : List α} {ks : List K} (h : EachKey key l ks) (hl : l.Perm l') :
    EachKey key l' ks where
  nodup := h.nodup
  mem_iff k := by simp only [h.mem_iff, hl.mem_iff]

theorem perm_valuesOf {l l' : List α} (h : l.Perm l') (k : K) :
    (valuesOf key value l k).Perm (valuesOf key value l' k) :=
  (h.filter _).map _

/-! ### Cutting a sorted list -/

section Sorted
variable {a : α} {rest : List α}

theorem key_eq_of_mem_takeWhile {b : α} (hb : b ∈ rest.takeWhile (key · = key a)) :
    key b = key a := by
  simpa using List.mem_takeWhile_imp hb

/-- The values of any other key come after the first block. -/
theorem valuesOf_other {k : K} (hk : k ≠ key a) :
    valuesOf key value (a :: rest) k =
      valuesOf key value (rest.dropWhile (key · = key a)) k := by
  have hsame : (rest.takeWhile (key · = key a)).filter (key · = k) = [] :=
    List.filter_eq_nil_iff.mpr fun b hb => by
      simpa [key_eq_of_mem_takeWhile hb] using hk.symm
  have hrest : rest.filter (key · = k) = (rest.dropWhile (key · = key a)).filter (key · = k) := by
    conv_lhs => rw [← List.takeWhile_append_dropWhile (p := (key · = key a)) (l := rest)]
    rw [List.filter_append, hsame, List.nil_append]
  simp [valuesOf, hrest, hk.symm]

variable [PartialOrder K]

/-- No later element belongs to the first block. -/
theorem key_ne_of_mem_dropWhile (hsorted : (a :: rest).Pairwise (key · ≤ key ·)) {b : α}
    (hb : b ∈ rest.dropWhile (key · = key a)) : key b ≠ key a := by
  intro heq
  obtain ⟨hle, hrest⟩ := List.pairwise_cons.mp hsorted
  have hsub : (rest.dropWhile (key · = key a)).Sublist rest := List.dropWhile_sublist _
  cases hdrop : rest.dropWhile (key · = key a) with
  | nil => simp [hdrop] at hb
  | cons c others =>
    have hc : key c ≠ key a := by
      have hhead := List.head_dropWhile_not (key · = key a) (l := rest) (by simp [hdrop])
      simpa [hdrop] using hhead
    rw [hdrop] at hb hsub
    have hcb : key c ≤ key b := by
      rcases List.mem_cons.mp hb with rfl | hmem
      · exact le_rfl
      · exact (List.pairwise_cons.mp (hrest.sublist hsub)).1 b hmem
    exact hc (le_antisymm (heq ▸ hcb) (hle c (hsub.subset List.mem_cons_self)))

/-- The values of the first key are the first block. -/
theorem valuesOf_first (hsorted : (a :: rest).Pairwise (key · ≤ key ·)) :
    valuesOf key value (a :: rest) (key a) =
      value a :: (rest.takeWhile (key · = key a)).map value := by
  have hsame : (rest.takeWhile (key · = key a)).filter (key · = key a) =
      rest.takeWhile (key · = key a) :=
    List.filter_eq_self.mpr fun b hb => by simpa using key_eq_of_mem_takeWhile hb
  have hothers : (rest.dropWhile (key · = key a)).filter (key · = key a) = [] :=
    List.filter_eq_nil_iff.mpr fun b hb => by simpa using key_ne_of_mem_dropWhile hsorted hb
  have hrest : rest.filter (key · = key a) = rest.takeWhile (key · = key a) := by
    conv_lhs => rw [← List.takeWhile_append_dropWhile (p := (key · = key a)) (l := rest)]
    rw [List.filter_append, hsame, hothers, List.append_nil]
  simp [valuesOf, hrest]

theorem EachKey.cons (hsorted : (a :: rest).Pairwise (key · ≤ key ·)) {ks : List K}
    (h : EachKey key (rest.dropWhile (key · = key a)) ks) :
    EachKey key (a :: rest) (key a :: ks) where
  nodup := by
    refine List.nodup_cons.mpr ⟨fun hmem => ?_, h.nodup⟩
    obtain ⟨b, hb, hkey⟩ := (h.mem_iff _).mp hmem
    exact key_ne_of_mem_dropWhile hsorted hb hkey
  mem_iff k := by
    have hrest : ∀ b, b ∈ rest ↔ b ∈ rest.takeWhile (key · = key a) ∨
        b ∈ rest.dropWhile (key · = key a) := by
      intro b
      rw [← List.mem_append, List.takeWhile_append_dropWhile]
    rw [List.mem_cons, h.mem_iff]
    constructor
    · rintro (rfl | ⟨b, hb, hkey⟩)
      · exact ⟨a, List.mem_cons_self, rfl⟩
      · exact ⟨b, List.mem_cons_of_mem _ ((hrest b).mpr (.inr hb)), hkey⟩
    · rintro ⟨b, hb, hkey⟩
      rcases List.mem_cons.mp hb with rfl | hb
      · exact .inl hkey.symm
      · rcases (hrest b).mp hb with hb | hb
        · exact .inl (hkey.symm.trans (key_eq_of_mem_takeWhile hb))
        · exact .inr ⟨b, hb, hkey⟩

/-- The blocks of a sorted list are the groups of its keys. -/
theorem blocks_of_sorted (value : α → V) (l : List α) (hsorted : l.Pairwise (key · ≤ key ·)) :
    ∃ ks, EachKey key l ks ∧
      blocks key value l = ks.map fun k => (k, valuesOf key value l k) := by
  induction l using blocks.induct key with
  | case1 => exact ⟨[], ⟨List.nodup_nil, by simp⟩, by simp [blocks]⟩
  | case2 a rest ih =>
    obtain ⟨ks, hks, hblocks⟩ :=
      ih ((List.pairwise_cons.mp hsorted).2.sublist (List.dropWhile_sublist _))
    refine ⟨key a :: ks, hks.cons hsorted, ?_⟩
    rw [blocks, hblocks, List.map_cons, valuesOf_first hsorted]
    congr 1
    refine List.map_congr_left fun k hk => ?_
    obtain ⟨b, hb, rfl⟩ := (hks.mem_iff k).mp hk
    rw [valuesOf_other (key_ne_of_mem_dropWhile hsorted hb)]

end Sorted

/-- A way to sort by keys; elements with equal keys may come in any order. -/
structure Sorting (key : α → K) [LE K] where
  sort : List α → List α
  perm : ∀ l, (sort l).Perm l
  sorted : ∀ l, (sort l).Pairwise (key · ≤ key ·)

def Sorting.insertion [LinearOrder K] (key : α → K) : Sorting key where
  sort := List.insertionSort (key · ≤ key ·)
  perm := List.perm_insertionSort _
  sorted := List.pairwise_insertionSort _

/-! ### Splitting by a hash -/

variable {n : Nat} {hash : K → Nat} {l : List α}

omit [DecidableEq K] in
/-- Sorting the elements of a list into the lists they belong to. -/
theorem getElem?_foldl_modify (index : α → Nat) (l : List α) (lists : List (List α)) (y : Nat) :
    (l.foldl (fun lists a => lists.modify (index a) (· ++ [a])) lists)[y]? =
      (lists[y]?).map (· ++ l.filter (index · = y)) := by
  induction l generalizing lists with
  | nil => simp
  | cons a rest ih =>
    rw [List.foldl_cons, ih, List.getElem?_modify, List.filter_cons]
    by_cases hy : index a = y
    · simp [hy, Function.comp_def]
    · simp [hy]

omit [DecidableEq K] in
theorem length_foldl_modify (index : α → Nat) (l : List α) (lists : List (List α)) :
    (l.foldl (fun lists a => lists.modify (index a) (· ++ [a])) lists).length = lists.length := by
  induction l generalizing lists with
  | nil => rfl
  | cons a rest ih => rw [List.foldl_cons, ih, List.length_modify]

omit [DecidableEq K] in
/-- The keys of the parts are the keys of the whole. -/
theorem eachKey_flatMap {ks : Nat → List K} (hhash : ∀ k, hash k < n)
    (hks : ∀ y < n, EachKey key (l.filter fun a => hash (key a) = y) (ks y)) :
    EachKey key l ((List.range n).flatMap ks) where
  nodup := by
    rw [List.nodup_flatMap]
    refine ⟨fun y hy => (hks y (List.mem_range.mp hy)).nodup, ?_⟩
    refine List.nodup_range.pairwise_of_forall_ne fun y hy y' hy' hne k hk hk' => hne ?_
    obtain ⟨a, ha, rfl⟩ := ((hks y (List.mem_range.mp hy)).mem_iff k).mp hk
    obtain ⟨b, hb, hkey⟩ := ((hks y' (List.mem_range.mp hy')).mem_iff _).mp hk'
    have hy : hash (key a) = y := by simpa using (List.mem_filter.mp ha).2
    have hy' : hash (key b) = y' := by simpa using (List.mem_filter.mp hb).2
    rw [← hy, ← hy', hkey]
  mem_iff k := by
    simp only [List.mem_flatMap, List.mem_range]
    constructor
    · rintro ⟨y, hy, hk⟩
      obtain ⟨a, ha, hkey⟩ := ((hks y hy).mem_iff k).mp hk
      exact ⟨a, (List.mem_filter.mp ha).1, hkey⟩
    · rintro ⟨a, ha, rfl⟩
      exact ⟨hash (key a), hhash _,
        ((hks _ (hhash _)).mem_iff _).mpr ⟨a, List.mem_filter.mpr ⟨ha, by simp⟩, rfl⟩⟩

/-- The values of a key are found in the key's part. -/
theorem valuesOf_part {y : Nat} {k : K} (hk : hash k = y) :
    valuesOf key value (l.filter fun a => hash (key a) = y) k = valuesOf key value l k := by
  rw [valuesOf, List.filter_filter]
  congr 1
  refine List.filter_congr fun a _ => ?_
  by_cases hkey : key a = k
  · simp [hkey, hk]
  · simp [hkey]

/-- What a job makes of every key and its values, in parts or at once. -/
theorem perm_flatMap_parts {emit : K → List V → List β}
    (hemit : ∀ k vs vs', vs.Perm vs' → emit k vs = emit k vs') (hhash : ∀ k, hash k < n)
    {parts : Nat → List α}
    (hparts : ∀ y < n, (parts y).Perm (l.filter fun a => hash (key a) = y))
    {ks : Nat → List K} (hks : ∀ y < n, EachKey key (parts y) (ks y)) {whole : List K}
    (hwhole : EachKey key l whole) :
    ((List.range n).flatMap fun y => (ks y).flatMap fun k =>
      emit k (valuesOf key value (parts y) k)).Perm
        (whole.flatMap fun k => emit k (valuesOf key value l k)) := by
  have hks' : ∀ y < n, EachKey key (l.filter fun a => hash (key a) = y) (ks y) :=
    fun y hy => (hks y hy).of_perm (hparts y hy)
  have hvalues : ∀ y < n, ∀ k ∈ ks y,
      emit k (valuesOf key value (parts y) k) = emit k (valuesOf key value l k) := by
    intro y hy k hk
    obtain ⟨a, ha, rfl⟩ := ((hks' y hy).mem_iff k).mp hk
    have hy : hash (key a) = y := by simpa using (List.mem_filter.mp ha).2
    rw [← valuesOf_part (l := l) hy]
    exact hemit _ _ _ (perm_valuesOf (hparts y (hy ▸ hhash _)) _)
  have hflat : ((List.range n).flatMap fun y => (ks y).flatMap fun k =>
      emit k (valuesOf key value (parts y) k)) =
        ((List.range n).flatMap ks).flatMap fun k => emit k (valuesOf key value l k) := by
    rw [List.flatMap_assoc]
    refine List.flatMap_congr fun y hy => List.flatMap_congr fun k hk => ?_
    exact hvalues y (List.mem_range.mp hy) k hk
  rw [hflat]
  exact ((eachKey_flatMap hhash hks').perm hwhole).flatMap_right _

end RaftLabs.Lib.Grouping
