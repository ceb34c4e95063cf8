import Mathlib.Data.Nat.Basic
import Mathlib.Order.Basic
import RaftLabs.ShardCtrler.Config

/-! What copying and rebalancing a configuration do, whatever the order of the loops.

During the loop of `rebalanceConfig` the table `gid2shards` stays a partition of the shards:
every shard is in the list of exactly one gid. A round takes shards only from a gid with more
than the average and gives them only to a gid with less, so a gid that owns the average or
more at the start does so at the end. -/
namespace RaftLabs.ShardCtrler
open Lib

/-! ### Copies -/

theorem groups_deepCopy (order : RangeOrder Int) (cfg : Config) :
    (deepCopy order cfg).groups = cfg.groups := by
  refine GoMap.ext_get? fun k => ?_
  rw [deepCopy, GoMap.get?_foldl_append _ (order.nodup _)]
  simp only [RangeOrder.mem_list]
  split
  · rename_i hk
    obtain ⟨v, hv⟩ := Option.isSome_iff_exists.mp (GoMap.mem_keys.mp hk)
    rw [GoMap.getD, GoMap.getD, GoMap.get?_empty, hv]
    rfl
  · rename_i hk
    rw [GoMap.get?_empty, GoMap.get?_eq_none.mpr hk]

/-- The groups after a `Join` that finds groups. -/
theorem mem_keys_joinGroups (order : RangeOrder Int) {cfg : Config}
    {servers : GoMap Int (List String)} {gid : Int} :
    gid ∈ (joinGroups order cfg servers).groups.keys ↔
      gid ∈ servers.keys ∨ gid ∈ cfg.groups.keys := by
  rw [joinGroups, GoMap.mem_keys, GoMap.get?_foldl_append _ (order.nodup _)]
  simp only [RangeOrder.mem_list]
  split
  · exact ⟨fun _ => .inl ‹_›, fun _ => rfl⟩
  · rw [← GoMap.mem_keys]
    exact ⟨.inr, fun h => h.resolve_left ‹_›⟩

/-- The groups after a `Leave`. -/
theorem mem_keys_leaveGroups (order : RangeOrder Int) {cfg : Config} {gids : List Int}
    {gid : Int} : gid ∈ (leaveGroups order cfg gids).groups.keys ↔
      gid ∉ gids ∧ gid ∈ cfg.groups.keys := by
  have hdelete : ∀ groups : GoMap Int (List String),
      gid ∈ (gids.foldl (fun groups gid => groups.delete gid) groups).keys ↔
        gid ∉ gids ∧ gid ∈ groups.keys := by
    induction gids with
    | nil => simp
    | cons g rest ih =>
      intro groups
      rw [List.foldl_cons, ih, GoMap.mem_keys_delete, List.mem_cons, not_or, and_assoc,
        and_left_comm]
  exact hdelete cfg.groups

/-! ### Partitions -/

/-- Every shard is in the list of exactly one gid, and there once. -/
structure Partition (m : GoMap Int (List Shard)) : Prop where
  cover : ∀ s, ∃ g, s ∈ m.getD g []
  disjoint : ∀ s g g', s ∈ m.getD g [] → s ∈ m.getD g' [] → g = g'
  nodup : ∀ g, (m.getD g []).Nodup

theorem getD_gid2shards (shards : Shard → Int) (g : Int) :
    (gid2shards shards).getD g [] = (List.finRange nShards).filter (shards · = g) := by
  rw [gid2shards, GoMap.getD_foldl_group]
  rfl

theorem mem_gid2shards {shards : Shard → Int} {g : Int} {s : Shard} :
    s ∈ (gid2shards shards).getD g [] ↔ shards s = g := by
  rw [getD_gid2shards, List.mem_filter]
  simp

theorem mem_keys_gid2shards {shards : Shard → Int} {g : Int} :
    g ∈ (gid2shards shards).keys ↔ ∃ s, shards s = g := by
  rw [gid2shards, GoMap.mem_keys_foldl_group]
  simp

theorem partition_gid2shards (shards : Shard → Int) : Partition (gid2shards shards) where
  cover s := ⟨shards s, mem_gid2shards.mpr rfl⟩
  disjoint s g g' h h' := (mem_gid2shards.mp h).symm.trans (mem_gid2shards.mp h')
  nodup g := by
    rw [getD_gid2shards]
    exact (List.nodup_finRange _).filter _

section Move
variable {m : GoMap Int (List Shard)} {lo hi : Int} {part : Nat}

theorem getD_moveShards (g : Int) : (moveShards m lo hi part).getD g [] =
    if g = hi then (m.getD hi []).drop part
    else if g = lo then m.getD lo [] ++ (m.getD hi []).take part
    else m.getD g [] := by
  rw [moveShards, GoMap.getD_set, GoMap.getD_set]

/-- Where a shard is after a move. -/
theorem mem_moveShards (hm : Partition m) (hne : lo ≠ hi) {g : Int} {s : Shard} :
    s ∈ (moveShards m lo hi part).getD g [] ↔
      if s ∈ (m.getD hi []).take part then g = lo else s ∈ m.getD g [] := by
  have hsplit : s ∈ m.getD hi [] ↔ s ∈ (m.getD hi []).take part ∨ s ∈ (m.getD hi []).drop part := by
    rw [← List.mem_append, List.take_append_drop]
  have hapart : s ∈ (m.getD hi []).take part → s ∉ (m.getD hi []).drop part := fun ht hd =>
    List.disjoint_take_drop (hm.nodup hi) (Nat.le_refl part) ht hd
  rw [getD_moveShards]
  by_cases ht : s ∈ (m.getD hi []).take part
  · rw [if_pos ht]
    have hs := hsplit.mpr (.inl ht)
    by_cases hhi : g = hi
    · rw [if_pos hhi]
      exact ⟨fun hd => absurd hd (hapart ht), fun heq => absurd (heq.symm.trans hhi) hne⟩
    · rw [if_neg hhi]
      by_cases hlo : g = lo
      · rw [if_pos hlo]
        exact ⟨fun _ => hlo, fun _ => List.mem_append_right _ ht⟩
      · rw [if_neg hlo]
        exact ⟨fun hg => absurd (hm.disjoint s g hi hg hs) hhi, fun heq => absurd heq hlo⟩
  · rw [if_neg ht]
    by_cases hhi : g = hi
    · rw [if_pos hhi, hhi, hsplit]
      exact ⟨.inr, fun h => h.resolve_left ht⟩
    · rw [if_neg hhi]
      by_cases hlo : g = lo
      · rw [if_pos hlo, hlo, List.mem_append]
        exact ⟨fun h => h.resolve_right ht, .inl⟩
      · rw [if_neg hlo]

theorem Partition.moveShards (hm : Partition m) (hne : lo ≠ hi) :
    Partition (moveShards m lo hi part) where
  cover s := by
    by_cases ht : s ∈ (m.getD hi []).take part
    · exact ⟨lo, (mem_moveShards hm hne).mpr (by rw [if_pos ht])⟩
    · obtain ⟨g, hg⟩ := hm.cover s
      exact ⟨g, (mem_moveShards hm hne).mpr (by rwa [if_neg ht])⟩
  disjoint s g g' h h' := by
    rw [mem_moveShards hm hne] at h h'
    split at h
    · rw [if_pos ‹_›] at h'
      exact h.trans h'.symm
    · rw [if_neg ‹_›] at h'
      exact hm.disjoint s g g' h h'
  nodup g := by
    rw [getD_moveShards]
    split
    · exact (hm.nodup hi).sublist (List.drop_sublist _ _)
    · split
      · refine List.nodup_append.mpr ⟨hm.nodup lo, (hm.nodup hi).sublist (List.take_sublist _ _),
          fun a ha b hb heq => ?_⟩
        subst heq
        exact hne (hm.disjoint a lo hi ha (List.mem_of_mem_take hb))
      · exact hm.nodup g

theorem mem_keys_moveShards {g : Int} :
    g ∈ (moveShards m lo hi part).keys ↔ g = hi ∨ g = lo ∨ g ∈ m.keys := by
  rw [ShardCtrler.moveShards, GoMap.mem_keys_set, GoMap.mem_keys_set]

end Move

/-! ### The loop -/

/-- A property of the table that every round keeps holds at the end; and there is an end. -/
theorem rebalanceLoop_rule {gids : List GidPair} {avg : Nat}
    {P : GoMap Int (List Shard) → Prop} (hgids : (gids.map (·.gid)).Nodup)
    (hround : ∀ m lo hi, P m → lo ∈ gids → hi ∈ gids → lo.gid ≠ hi.gid →
      (m.getD lo.gid []).length < avg → avg < (m.getD hi.gid []).length →
      P (moveShards m lo.gid hi.gid
        (min (avg - (m.getD lo.gid []).length) ((m.getD hi.gid []).length - avg))))
    {i j : Nat} (hj : j < gids.length) {m : GoMap Int (List Shard)} (hm : P m) :
    ∃ m', rebalanceLoop gids avg i j m = some m' ∧ P m' := by
  -- every round brings `i` and `j` closer
  induction hd : j - i using Nat.strong_induction_on generalizing i j m with
  | _ d ih =>
    rw [rebalanceLoop]
    split
    · rename_i hij
      have hi : i < gids.length := hij.trans hj
      rw [List.getElem?_eq_getElem hi, List.getElem?_eq_getElem hj]
      dsimp only
      split
      · rename_i hguard
        have hne : gids[i].gid ≠ gids[j].gid :=
          List.pairwise_iff_getElem.mp (List.pairwise_map.mp hgids) i j hi hj hij
        have hP := hround m gids[i] gids[j] hm (List.getElem_mem _) (List.getElem_mem _) hne
          hguard.1 hguard.2
        split
        · exact ih (j - 1 - (i + 1)) (by omega) (by omega) hP rfl
        · split
          · exact ih (j - (i + 1)) (by omega) hj hP rfl
          · exact ih (j - 1 - i) (by omega) (by omega) hP rfl
      · exact ⟨m, rfl, hm⟩
    · exact ⟨m, rfl, hm⟩

/-- What the loop keeps, from the table `m₀` on: a partition among the gids of `allowed`, in
which nobody falls below the average. -/
structure Balancing (m₀ : GoMap Int (List Shard)) (allowed : Int → Prop) (avg : Nat)
    (m : GoMap Int (List Shard)) : Prop where
  partition : Partition m
  within : ∀ g ∈ m.keys, allowed g
  floor : ∀ g, avg ≤ (m₀.getD g []).length → avg ≤ (m.getD g []).length

theorem Balancing.round {m₀ m : GoMap Int (List Shard)} {allowed : Int → Prop} {avg : Nat}
    (h : Balancing m₀ allowed avg m) {lo hi : Int} (hlo : allowed lo) (hhi : allowed hi)
    (hne : lo ≠ hi) (hltlo : (m.getD lo []).length < avg) :
    Balancing m₀ allowed avg (moveShards m lo hi
      (min (avg - (m.getD lo []).length) ((m.getD hi []).length - avg))) where
  partition := h.partition.moveShards hne
  within g hg := by
    rcases mem_keys_moveShards.mp hg with rfl | rfl | hg
    · exact hhi
    · exact hlo
    · exact h.within g hg
  floor g hg := by
    have hfloor := h.floor g hg
    rw [getD_moveShards]
    split
    · subst g
      rw [List.length_drop]
      omega
    · split
      · subst g
        omega
      · exact hfloor

/-! ### The sorted owners -/

section Sorted
variable (orders : Orders) (cfg : Config) (m : GoMap Int (List Shard))

theorem sortedGids_perm : (sortedGids orders cfg m).map (·.gid) |>.Perm
    (orders.owners.list m.keys ++ (orders.groups.list cfg.groups.keys).filter (· ∉ m.keys)) := by
  refine ((List.perm_insertionSort GidPair.le _).map _).trans ?_
  rw [List.map_append, List.map_map, List.map_map]
  simp [Function.comp_def]

theorem sortedGids_nodup : ((sortedGids orders cfg m).map (·.gid)).Nodup := by
  refine (sortedGids_perm orders cfg m).nodup_iff.mpr (List.nodup_append.mpr
    ⟨orders.owners.nodup _, (orders.groups.nodup _).filter _, fun a ha b hb heq => ?_⟩)
  subst heq
  have hin := (orders.owners.mem _ _).mp ha
  exact absurd hin (by simpa using (List.mem_filter.mp hb).2)

variable {orders cfg m}

theorem mem_sortedGids {p : GidPair} (h : p ∈ sortedGids orders cfg m) :
    p.gid ∈ m.keys ∨ p.gid ∈ cfg.groups.keys := by
  have hp := (sortedGids_perm orders cfg m).mem_iff.mp (List.mem_map_of_mem (f := (·.gid)) h)
  rcases List.mem_append.mp hp with hp | hp
  · exact .inl ((orders.owners.mem _ _).mp hp)
  · exact .inr ((orders.groups.mem _ _).mp (List.mem_filter.mp hp).1)

theorem sortedGids_length_pos {g : Int} (hg : g ∈ m.keys) :
    0 < (sortedGids orders cfg m).length := by
  have hmem := (sortedGids_perm orders cfg m).mem_iff.mpr
    (List.mem_append_left _ ((orders.owners.mem m.keys g).mpr hg))
  rw [← List.length_map (f := (·.gid))]
  exact List.length_pos_of_mem hmem

end Sorted

/-! ### Assigning the shards -/

theorem foldl_assign (l : List Shard) (g : Int) (shards : Shard → Int) (s : Shard) :
    l.foldl (fun shards s => Function.update shards s g) shards s =
      if s ∈ l then g else shards s := by
  induction l generalizing shards with
  | nil => rfl
  | cons a rest ih =>
    rw [List.foldl_cons, ih]
    by_cases hs : s = a
    · subst hs
      simp
    · simp [hs]

theorem assignShards_eq {order : RangeOrder Int} {m : GoMap Int (List Shard)} (hm : Partition m)
    (shards : Shard → Int) {s : Shard} {g : Int} (hs : s ∈ m.getD g []) :
    assignShards order m shards s = g := by
  have hkey : g ∈ order.list m.keys := (order.mem _ _).mpr
    (GoMap.mem_keys_of_getD (List.ne_nil_of_mem hs))
  -- only the round of `g` touches `s`
  have hlist : ∀ (gs : List Int) (shards : Shard → Int), g ∈ gs ∨ shards s = g →
      gs.foldl (fun shards gid =>
        (m.getD gid []).foldl (fun shards s => Function.update shards s gid) shards) shards s = g := by
    intro gs
    induction gs with
    | nil => exact fun shards h => h.resolve_left List.not_mem_nil
    | cons g' rest ih =>
      intro shards h
      rw [List.foldl_cons]
      refine ih _ ?_
      rw [foldl_assign]
      by_cases hs' : s ∈ m.getD g' []
      · rw [if_pos hs']
        exact .inr (hm.disjoint s g' g hs' hs)
      · rw [if_neg hs']
        refine h.imp_left fun hg => (List.mem_cons.mp hg).resolve_left fun heq => ?_
        exact hs' (heq ▸ hs)
  exact hlist _ shards (.inl hkey)

/-- What rebalancing a configuration with groups gives: new owners that are old owners or
groups, and whoever owned the average keeps that much. -/
theorem rebalanceConfig_spec (orders : Orders) (cfg : Config) (hne : cfg.groups.len ≠ 0) :
    ∃ shards, rebalanceConfig orders cfg = some { cfg with shards := shards } ∧
      (∀ s, (∃ s', cfg.shards s' = shards s) ∨ shards s ∈ cfg.groups.keys) ∧
      ∀ g, max 1 (nShards / cfg.groups.len) ≤
        ((List.finRange nShards).filter (cfg.shards · = g)).length → ∃ s, shards s = g := by
  have hlen : 0 < (sortedGids orders cfg (gid2shards cfg.shards)).length :=
    sortedGids_length_pos (mem_keys_gid2shards.mpr ⟨⟨0, by decide⟩, rfl⟩)
  let allowed : Int → Prop := fun g => g ∈ (gid2shards cfg.shards).keys ∨ g ∈ cfg.groups.keys
  obtain ⟨m, hloop, hm⟩ := rebalanceLoop_rule (i := 0) (j := _ - 1)
    (P := Balancing (gid2shards cfg.shards) allowed (max 1 (nShards / cfg.groups.len)))
    (sortedGids_nodup orders cfg (gid2shards cfg.shards))
    (fun m lo hi hP hlo hhi hne hlt _ => hP.round (mem_sortedGids hlo) (mem_sortedGids hhi) hne hlt)
    (Nat.sub_lt hlen Nat.one_pos)
    ⟨partition_gid2shards cfg.shards, fun g hg => .inl hg, fun g hg => hg⟩
  refine ⟨assignShards orders.assign m cfg.shards, ?_, fun s => ?_, fun g hg => ?_⟩
  · rw [rebalanceConfig, if_neg hne]
    dsimp only
    rw [hloop]
    rfl
  · obtain ⟨g, hg⟩ := hm.partition.cover s
    rw [assignShards_eq hm.partition _ hg]
    exact (hm.within g (GoMap.mem_keys_of_getD (List.ne_nil_of_mem hg))).imp_left
      mem_keys_gid2shards.mp
  · have hfloor := hm.floor g (by rwa [getD_gid2shards])
    obtain ⟨s, hs⟩ := List.exists_mem_of_length_pos
      (Nat.lt_of_lt_of_le (Nat.lt_of_lt_of_le Nat.one_pos (Nat.le_max_left _ _)) hfloor)
    exact ⟨s, assignShards_eq hm.partition _ hs⟩

/-! ### What stays -/

theorem rebalanceConfig_eq {orders : Orders} {cfg cfg' : Config}
    (h : rebalanceConfig orders cfg = some cfg') :
    ∃ shards, cfg' = { cfg with shards := shards } := by
  unfold rebalanceConfig at h
  split at h
  · cases h
    exact ⟨cfg.shards, rfl⟩
  · obtain ⟨m, -, rfl⟩ := Option.map_eq_some_iff.mp h
    exact ⟨_, rfl⟩

theorem initConfifg_eq {order : RangeOrder Int} {cfg cfg' : Config}
    {servers : GoMap Int (List String)} (h : initConfifg order cfg servers = some cfg') :
    ∃ shards, cfg' = { cfg with groups := servers, shards := shards } := by
  unfold initConfifg at h
  dsimp only at h
  split at h
  · cases h
    exact ⟨_, rfl⟩
  · cases h

end RaftLabs.ShardCtrler
