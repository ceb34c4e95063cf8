import Mathlib.Data.Finset.Image
import Mathlib.Data.Fintype.Card
import RaftLabs.Lib.Leveling
import RaftLabs.ShardCtrler.Determinism
import RaftLabs.ShardCtrler.Membership

/-! When the controller's configurations are balanced.

`rebalanceConfig` levels the numbers of shards towards the average, rounded down, from both ends
of the owners sorted by these numbers. With `n` groups the `nShards % n` shards that are left over
stay with the owners that had least above the average. They end up with different groups exactly
when all but one of them were with groups that had one shard above the average. -/
namespace RaftLabs.ShardCtrler
open Lib

/-- The number of shards of a group. -/
def shardCount (cfg : Config) (gid : Int) : Nat :=
  (Finset.univ.filter fun s => cfg.shards s = gid).card

/-- The groups have the same number of shards, up to one. -/
def Balanced (cfg : Config) : Prop :=
  ∀ g ∈ cfg.groups.keys, ∀ g' ∈ cfg.groups.keys, shardCount cfg g ≤ shardCount cfg g' + 1

/-- Before it is rebalanced, the configuration has all but one of the shards that will be left
over with groups that are one above the average; or there are more groups than shards. -/
def Even (cfg : Config) : Prop :=
  nShards < cfg.groups.len ∨ nShards % cfg.groups.len ≤
    (cfg.groups.keys.filter fun g => shardCount cfg g = nShards / cfg.groups.len + 1).card + 1

/-- What a request hands to `rebalanceConfig` is even. -/
def Spreads (cfg : Config) : Request → Prop
  | .join servers => cfg.groups.keys = ∅ ∨ Even (joinGroups .sorted cfg servers)
  | .leave gids => (∀ g ∈ cfg.groups.keys, g ∈ gids) ∨ Even (leaveGroups .sorted cfg gids)
  | .move _ _ | .query => True

def Request.IsMove : Request → Prop
  | .move _ _ => True
  | _ => False

instance (cfg : Config) : Decidable (Balanced cfg) := by unfold Balanced; infer_instance

instance (cfg : Config) : Decidable (Even cfg) := by unfold Even; infer_instance

instance (cfg : Config) : (r : Request) → Decidable (Spreads cfg r)
  | .join _ => inferInstanceAs (Decidable (_ ∨ _))
  | .leave _ => inferInstanceAs (Decidable (_ ∨ _))
  | .move _ _ | .query => isTrue trivial

instance : (r : Request) → Decidable r.IsMove
  | .move _ _ => isTrue trivial
  | .join _ | .leave _ | .query => isFalse id

/-! ### The loop on numbers of shards -/

/-- The number of shards of the owner at a place of the sorted list. -/
def countAt (gids : List GidPair) (m : GoMap Int (List Shard)) (k : Nat) : Nat :=
  match gids[k]? with
  | some p => (m.getD p.gid []).length
  | none => 0

section Loop
variable {gids : List GidPair} {m m' : GoMap Int (List Shard)} {avg i j : Nat}

theorem countAt_eq {p : GidPair} (h : gids[i]? = some p) :
    countAt gids m i = (m.getD p.gid []).length := by
  rw [countAt, h]

theorem countAt_moveShards {lo hi : GidPair} {part : Nat} (hgids : (gids.map (·.gid)).Nodup)
    (hlo : gids[i]? = some lo) (hhi : gids[j]? = some hi) (hij : i ≠ j)
    (hpart : part ≤ (m.getD hi.gid []).length) :
    countAt gids (moveShards m lo.gid hi.gid part) =
      Leveling.transfer (countAt gids m) i j part := by
  have hinj : ∀ {a b : Nat} {p q : GidPair}, gids[a]? = some p → gids[b]? = some q →
      p.gid = q.gid → a = b := by
    intro a b p q ha hb heq
    have hmap : (gids.map (·.gid))[a]? = (gids.map (·.gid))[b]? := by
      rw [List.getElem?_map, List.getElem?_map, ha, hb, Option.map_some, Option.map_some, heq]
    refine (List.getElem?_inj ?_ hgids).mp hmap
    rw [List.length_map]
    exact (List.getElem?_eq_some_iff.mp ha).1
  have hne : lo.gid ≠ hi.gid := fun heq => hij (hinj hlo hhi heq)
  funext k
  by_cases hkj : k = j
  · rw [hkj, Leveling.transfer_right, countAt_eq hhi, countAt_eq hhi, getD_moveShards, if_pos rfl,
      List.length_drop]
  · by_cases hki : k = i
    · rw [hki, Leveling.transfer_left hij, countAt_eq hlo, countAt_eq hlo, getD_moveShards,
        if_neg hne, if_pos rfl, List.length_append, List.length_take, Nat.min_eq_left hpart]
    · rw [Leveling.transfer_of_ne hki hkj]
      cases hk : gids[k]? with
      | none => rw [countAt, countAt, hk]
      | some p =>
        rw [countAt_eq hk, countAt_eq hk, getD_moveShards,
          if_neg fun heq => hkj (hinj hk hhi heq), if_neg fun heq => hki (hinj hk hlo heq)]

/-- **The loop of `rebalanceConfig` levels the numbers of shards.** -/
theorem countAt_rebalanceLoop (hgids : (gids.map (·.gid)).Nodup)
    (h : rebalanceLoop gids avg i j m = some m') :
    countAt gids m' = Leveling.level avg i j (countAt gids m) := by
  induction hd : j - i using Nat.strong_induction_on generalizing i j m with
  | _ d ih =>
    rw [rebalanceLoop] at h
    rw [Leveling.level]
    by_cases hij : i < j
    swap
    · rw [if_neg hij] at h
      rw [if_neg fun hguard => hij hguard.1]
      cases h
      rfl
    · rw [if_pos hij] at h
      split at h
      swap
      · cases h
      · rename_i lo hi hlo hhi
        rw [countAt_eq hlo, countAt_eq hhi]
        by_cases hguard : (m.getD lo.gid []).length < avg ∧ avg < (m.getD hi.gid []).length
        swap
        · rw [if_neg hguard] at h
          rw [if_neg fun hall => hguard hall.2]
          cases h
          rfl
        · rw [if_pos hguard] at h
          rw [if_pos ⟨hij, hguard⟩]
          dsimp only at h ⊢
          rw [← countAt_moveShards hgids hlo hhi hij.ne (by omega)]
          split at h
          · rename_i heq
            rw [if_pos heq]
            exact ih (j - 1 - (i + 1)) (by omega) h rfl
          · rename_i hne
            rw [if_neg hne]
            split at h
            · rename_i hlt
              rw [if_pos hlt]
              exact ih (j - (i + 1)) (by omega) h rfl
            · rename_i hge
              rw [if_neg hge]
              exact ih (j - 1 - i) (by omega) h rfl

end Loop

/-! ### Places and groups -/

def gidAt (gids : List GidPair) (k : Nat) : Int := (gids[k]?.map (·.gid)).getD 0

section Places
variable {gids : List GidPair}

theorem gidAt_eq {k : Nat} {p : GidPair} (h : gids[k]? = some p) : gidAt gids k = p.gid := by
  rw [gidAt, h]
  rfl

theorem image_gidAt : (Finset.range gids.length).image (gidAt gids) =
    (gids.map (·.gid)).toFinset := by
  ext g
  simp only [Finset.mem_image, Finset.mem_range, List.mem_toFinset, List.mem_map]
  constructor
  · rintro ⟨k, hk, rfl⟩
    exact ⟨gids[k], List.getElem_mem hk, (gidAt_eq (List.getElem?_eq_getElem hk)).symm⟩
  · rintro ⟨p, hp, rfl⟩
    obtain ⟨k, hk⟩ := List.mem_iff_getElem?.mp hp
    exact ⟨k, (List.getElem?_eq_some_iff.mp hk).1, gidAt_eq hk⟩

theorem injOn_gidAt (hgids : (gids.map (·.gid)).Nodup) :
    Set.InjOn (gidAt gids) (Finset.range gids.length) := by
  intro a ha b hb heq
  have ha := Finset.mem_range.mp ha
  have hb := Finset.mem_range.mp hb
  rw [gidAt_eq (List.getElem?_eq_getElem ha), gidAt_eq (List.getElem?_eq_getElem hb)] at heq
  refine (List.getElem?_inj (by rwa [List.length_map]) hgids).mp ?_
  rw [List.getElem?_map, List.getElem?_map, List.getElem?_eq_getElem ha,
    List.getElem?_eq_getElem hb, Option.map_some, Option.map_some, heq]

end Places

/-- The pairs that are sorted hold the numbers of shards. -/
theorem count_of_mem_sortedGids {orders : Orders} {cfg : Config} {m : GoMap Int (List Shard)}
    {p : GidPair} (h : p ∈ sortedGids orders cfg m) : p.count = (m.getD p.gid []).length := by
  have hp := (List.perm_insertionSort GidPair.le _).mem_iff.mp h
  rcases List.mem_append.mp hp with hp | hp
  · obtain ⟨g, -, rfl⟩ := List.mem_map.mp hp
    rfl
  · obtain ⟨g, hg, rfl⟩ := List.mem_map.mp hp
    have hout : g ∉ m.keys := by simpa using (List.mem_filter.mp hg).2
    show 0 = (m.getD g []).length
    rw [GoMap.getD, GoMap.get?_eq_none.mpr hout]
    rfl

theorem countAt_sorted (orders : Orders) (cfg : Config) (m : GoMap Int (List Shard)) {a b : Nat}
    (hab : a ≤ b) (hb : b < (sortedGids orders cfg m).length) :
    countAt (sortedGids orders cfg m) m a ≤ countAt (sortedGids orders cfg m) m b := by
  rcases Nat.lt_or_eq_of_le hab with hlt | rfl
  swap
  · exact Nat.le_refl _
  · have ha := hlt.trans hb
    have hsorted : (sortedGids orders cfg m).Pairwise GidPair.le := List.pairwise_insertionSort _ _
    have hle := List.pairwise_iff_getElem.mp hsorted a b ha hb hlt
    rw [countAt_eq (List.getElem?_eq_getElem ha), countAt_eq (List.getElem?_eq_getElem hb),
      ← count_of_mem_sortedGids (List.getElem_mem ha), ← count_of_mem_sortedGids (List.getElem_mem hb)]
    unfold GidPair.le at hle
    omega

/-! ### Rebalancing -/

theorem length_gid2shards (cfg : Config) (g : Int) :
    ((gid2shards cfg.shards).getD g []).length = shardCount cfg g := by
  rw [getD_gid2shards]
  rfl

/-- The new owners have the shards of the table. -/
theorem length_assignShards {m : GoMap Int (List Shard)} (hm : Partition m) {order : RangeOrder Int}
    {cfg cfg' : Config} (hshards : cfg'.shards = assignShards order m cfg.shards) (g : Int) :
    (m.getD g []).length = shardCount cfg' g := by
  rw [shardCount, ← List.toFinset_card_of_nodup (hm.nodup g)]
  congr 1
  ext s
  rw [List.mem_toFinset, Finset.mem_filter, hshards]
  constructor
  · exact fun hs => ⟨Finset.mem_univ s, assignShards_eq hm _ hs⟩
  · rintro ⟨-, heq⟩
    obtain ⟨g', hg'⟩ := hm.cover s
    rwa [← heq, assignShards_eq hm _ hg']

section Rebalance
variable (orders : Orders) {cfg : Config} (howned : ∀ s, cfg.shards s ∈ cfg.groups.keys)
include howned

/-- When all owners are groups, the groups are what is sorted. -/
theorem toFinset_sortedGids :
    ((sortedGids orders cfg (gid2shards cfg.shards)).map (·.gid)).toFinset = cfg.groups.keys := by
  ext g
  rw [List.mem_toFinset, (sortedGids_perm orders cfg _).mem_iff, List.mem_append, List.mem_filter,
    RangeOrder.mem_list, RangeOrder.mem_list]
  constructor
  · rintro (hg | ⟨hg, -⟩)
    · obtain ⟨s, rfl⟩ := mem_keys_gid2shards.mp hg
      exact howned s
    · exact hg
  · intro hg
    by_cases hin : g ∈ (gid2shards cfg.shards).keys
    · exact .inl hin
    · exact .inr ⟨hg, decide_eq_true hin⟩

theorem length_sortedGids :
    (sortedGids orders cfg (gid2shards cfg.shards)).length = cfg.groups.len := by
  rw [GoMap.len, ← toFinset_sortedGids orders howned,
    List.toFinset_card_of_nodup (sortedGids_nodup orders cfg _), List.length_map]

/-- Every shard has an owner among the groups. -/
theorem sum_shardCount : ∑ g ∈ cfg.groups.keys, shardCount cfg g = nShards := by
  have hsum := Finset.card_eq_sum_card_fiberwise (s := Finset.univ) (t := cfg.groups.keys)
    (f := cfg.shards) fun s _ => howned s
  rw [Finset.card_univ, Fintype.card_fin] at hsum
  exact hsum.symm

/-- Levelled numbers of shards are balanced exactly when they were even; `f` lists the groups. -/
theorem balanced_iff_of_leveled {cfg' : Config} {f : Nat → Int}
    (himage : (Finset.range cfg.groups.len).image f = cfg.groups.keys)
    (hinj : Set.InjOn f (Finset.range cfg.groups.len)) (hgroups : cfg'.groups = cfg.groups)
    (hlevel : Leveling.Leveled cfg.groups.len (max 1 (nShards / cfg.groups.len))
      (shardCount cfg ∘ f) (shardCount cfg' ∘ f)) : Balanced cfg' ↔ Even cfg := by
  have hpos : 0 < cfg.groups.len := Nat.pos_of_ne_zero (len_ne_zero.mpr ⟨_, howned 0⟩)
  have hsum : ∑ k ∈ Finset.range cfg.groups.len, (shardCount cfg ∘ f) k = nShards := by
    rw [← sum_shardCount howned]
    conv_rhs => rw [← himage]
    rw [Finset.sum_image hinj]
    rfl
  have hbalanced : Balanced cfg' ↔ ∀ a < cfg.groups.len, ∀ b < cfg.groups.len,
      (shardCount cfg' ∘ f) a ≤ (shardCount cfg' ∘ f) b + 1 := by
    rw [Balanced, hgroups, ← himage]
    simp only [Finset.forall_mem_image, Finset.mem_range]
    exact ⟨fun h a ha b hb => h ha hb, fun h a ha b hb => h a ha b hb⟩
  rw [hbalanced, Even]
  rcases Nat.lt_or_ge nShards cfg.groups.len with hmany | hfew
  · -- at most one shard for each
    rw [show max 1 (nShards / cfg.groups.len) = 1 by rw [Nat.div_eq_of_lt hmany]; rfl] at hlevel
    have hle := hlevel.le_of_sum_lt (by rw [hsum, Nat.mul_one]; exact hmany)
    refine ⟨fun _ => .inl hmany, fun _ a ha b hb => ?_⟩
    have := hle a ha
    omega
  · rw [max_eq_right (Nat.div_pos hfew hpos)] at hlevel
    rw [hlevel.even_iff (r := nShards % cfg.groups.len) (by rw [hsum, Nat.div_add_mod])
      (Nat.mod_lt _ hpos), or_iff_right (Nat.not_lt.mpr hfew)]
    have hcard : ((Finset.range cfg.groups.len).filter fun k =>
        (shardCount cfg ∘ f) k = nShards / cfg.groups.len + 1).card =
        (cfg.groups.keys.filter fun g => shardCount cfg g = nShards / cfg.groups.len + 1).card := by
      conv_rhs => rw [← himage]
      rw [Finset.filter_image, Finset.card_image_of_injOn
        (hinj.mono (Finset.coe_subset.mpr (Finset.filter_subset _ _)))]
      rfl
    rw [hcard]

variable (cfg) in
/-- **Rebalancing a valid configuration balances it exactly when it is even.** -/
theorem rebalanceConfig_balanced_iff :
    ∃ cfg', rebalanceConfig orders cfg = some cfg' ∧ (Balanced cfg' ↔ Even cfg) := by
  have hne : cfg.groups.len ≠ 0 := len_ne_zero.mpr ⟨_, howned 0⟩
  obtain ⟨m, hloop, hm⟩ := exists_rebalanceLoop orders cfg (max 1 (nShards / cfg.groups.len))
  refine ⟨{ cfg with shards := assignShards orders.assign m cfg.shards }, ?_, ?_⟩
  · rw [rebalanceConfig, if_neg hne]
    dsimp only
    rw [hloop]
    rfl
  have hgids := sortedGids_nodup orders cfg (gid2shards cfg.shards)
  have hlen := length_sortedGids orders howned
  have hlevel := Leveling.leveled_level (max 1 (nShards / cfg.groups.len))
    (Nat.lt_of_lt_of_eq (Nat.pos_of_ne_zero hne) hlen.symm)
    fun a b hab hb => countAt_sorted orders cfg (gid2shards cfg.shards) hab hb
  rw [← countAt_rebalanceLoop hgids hloop, hlen] at hlevel
  have himage := image_gidAt.trans (toFinset_sortedGids orders howned)
  have hinj := injOn_gidAt hgids
  rw [hlen] at himage hinj
  refine balanced_iff_of_leveled howned himage hinj rfl (hlevel.congr (fun k hk => ?_) fun k hk => ?_)
    <;> have hk := List.getElem?_eq_getElem (Nat.lt_of_lt_of_eq hk hlen.symm)
  · rw [countAt_eq hk, length_gid2shards, Function.comp_apply, gidAt_eq hk]
  · rw [countAt_eq hk, Function.comp_apply, gidAt_eq hk]
    exact (length_assignShards hm rfl _).symm

end Rebalance

/-! ### The first groups -/

/-- Dealing the shards out in turn gives everybody the average or one more. -/
theorem card_mod {n k : Nat} (hk : k < n) :
    nShards / n ≤ (Finset.univ.filter fun s : Shard => s.val % n = k).card ∧
      (Finset.univ.filter fun s : Shard => s.val % n = k).card ≤ nShards / n + 1 := by
  rcases Nat.lt_or_ge nShards n with hmany | hfew
  · rw [Nat.div_eq_of_lt hmany]
    refine ⟨Nat.zero_le _, Finset.card_le_one.mpr fun s hs s' hs' => Fin.ext ?_⟩
    have hs := (Finset.mem_filter.mp hs).2
    have hs' := (Finset.mem_filter.mp hs').2
    rwa [← hs', Nat.mod_eq_of_lt (s.isLt.trans hmany), Nat.mod_eq_of_lt (s'.isLt.trans hmany)] at hs
  · have hall : ∀ n : Fin (nShards + 1), ∀ k : Fin n,
        nShards / n ≤ (Finset.univ.filter fun s : Shard => s.val % n = k).card ∧
          (Finset.univ.filter fun s : Shard => s.val % n = k).card ≤ nShards / n + 1 := by
      decide
    exact hall ⟨n, Nat.lt_succ_of_le hfew⟩ ⟨k, hk⟩

theorem dealt_balanced {gids : List Int} {cfg : Config} (hlen : 0 < gids.length)
    (hnodup : gids.Nodup) (hmem : ∀ g ∈ cfg.groups.keys, g ∈ gids)
    (hshards : ∀ s : Shard, cfg.shards s = gids.get ⟨s % gids.length, Nat.mod_lt s hlen⟩) :
    Balanced cfg := by
  -- the shards of the group at place `k`
  have hcount : ∀ g ∈ cfg.groups.keys, ∃ k < gids.length,
      shardCount cfg g = (Finset.univ.filter fun s : Shard => s.val % gids.length = k).card := by
    intro g hg
    obtain ⟨k, hk, rfl⟩ := List.getElem_of_mem (hmem g hg)
    refine ⟨k, hk, congrArg Finset.card (Finset.filter_congr fun s _ => ?_)⟩
    rw [hshards s]
    exact hnodup.getElem_inj_iff
  intro g hg g' hg'
  obtain ⟨k, hk, heq⟩ := hcount g hg
  obtain ⟨k', hk', heq'⟩ := hcount g' hg'
  rw [heq, heq']
  have hle := (card_mod hk).2
  have hge := (card_mod hk').1
  omega

theorem initConfifg_balanced {order : RangeOrder Int} {cfg cfg' : Config}
    {servers : GoMap Int (List String)} (h : initConfifg order cfg servers = some cfg') :
    Balanced cfg' := by
  have hperm := List.perm_insertionSort (· ≤ ·) (order.list servers.keys)
  unfold initConfifg at h
  dsimp only at h
  split at h
  · rename_i hlen
    cases h
    exact dealt_balanced hlen (hperm.nodup_iff.mpr (order.nodup servers.keys))
      (fun g hg => hperm.mem_iff.mpr ((order.mem _ _).mpr hg)) fun _ => rfl
  · cases h

/-! ### Runs -/

section Step
variable {sc sc' : ShardCtrler} {orders : Orders}

theorem newConfig_eq_last {cfg : Config} (h : sc.newConfig orders = some cfg) :
    cfg = { last sc with num := cfg.num } := by
  obtain ⟨hshards, hgroups⟩ := newConfig_eq h
  cases cfg
  cases hshards
  cases hgroups
  rfl

/-- A join adds a configuration that is balanced exactly when the join spreads the shards. -/
theorem Healthy.join_balanced (h : Healthy sc) {servers : GoMap Int (List String)}
    (hstep : sc.apply orders (.join servers) = some sc') :
    ∃ cfg, sc' = sc.push cfg ∧ (Balanced cfg ↔ Spreads (last sc) (.join servers)) := by
  obtain ⟨cfg, hcopy, hjoin⟩ := Option.bind_eq_some_iff.mp hstep
  obtain ⟨cfg', hnext, rfl⟩ := Option.map_eq_some_iff.mp hjoin
  refine ⟨cfg', rfl, ?_⟩
  have hcfg := newConfig_eq_last hcopy
  generalize cfg.num = num at hcfg
  subst hcfg
  have hplaced := h.placed
  split at hnext
  · rename_i hzero
    have hnone : (last sc).groups.keys = ∅ := by
      by_contra hsome
      have howned := hplaced.valid (Finset.nonempty_iff_ne_empty.mpr hsome) 0
      have hpos := hplaced.positive _ howned
      rw [show (last sc).shards 0 = 0 from hzero] at hpos
      exact absurd hpos (lt_irrefl 0)
    exact ⟨fun _ => .inl hnone, fun _ => initConfifg_balanced hnext⟩
  · rename_i hnz
    have hsome : (last sc).groups.keys ≠ ∅ := fun hnone => hnz (hplaced.unowned hnone 0)
    have howned := hplaced.valid (Finset.nonempty_iff_ne_empty.mpr hsome)
    obtain ⟨cfg'', hreb, hiff⟩ := rebalanceConfig_balanced_iff orders
      (joinGroups orders.servers { last sc with num := num } servers)
      fun s => (mem_keys_joinGroups _).mpr (.inr (howned s))
    cases hreb.symm.trans hnext
    rw [hiff, Spreads, or_iff_right hsome, joinGroups_orders orders.servers .sorted]
    rfl

/-- A leave that takes all groups away or keeps an owner. -/
theorem Healthy.leave_balanced (h : Healthy sc) {gids : List Int}
    (hkeeps : KeepsOwner (last sc) (.leave gids))
    (hstep : sc.apply orders (.leave gids) = some sc') :
    ∃ cfg, sc' = sc.push cfg ∧ (Balanced cfg ↔ Spreads (last sc) (.leave gids)) := by
  obtain ⟨cfg, hcopy, hleave⟩ := Option.bind_eq_some_iff.mp hstep
  obtain ⟨cfg', hreb, rfl⟩ := Option.map_eq_some_iff.mp hleave
  refine ⟨cfg', rfl, ?_⟩
  have hcfg := newConfig_eq_last hcopy
  generalize cfg.num = num at hcfg
  subst hcfg
  have hkeys : ∀ g, g ∈ (leaveGroups orders.counts { last sc with num := num } gids).groups.keys ↔
      g ∉ gids ∧ g ∈ (last sc).groups.keys := fun g => mem_keys_leaveGroups orders.counts
  by_cases hall : ∀ g ∈ (last sc).groups.keys, g ∈ gids
  · refine ⟨fun _ => .inl hall, fun _ g hg => ?_⟩
    rw [rebalanceConfig_groups hreb] at hg
    exact absurd (hall g ((hkeys g).mp hg).2) ((hkeys g).mp hg).1
  · obtain ⟨s₀, hs₀, hstay⟩ := Or.resolve_left hkeeps hall
    have howned := h.placed.valid ⟨_, hs₀⟩
    obtain ⟨cfg'', hreb', hiff⟩ := rebalanceConfig_balanced_iff orders
      (leaveGroups orders.counts { last sc with num := num } gids)
      fun s => owned_leaveGroups orders.counts howned hstay s
    cases hreb'.symm.trans hreb
    rw [hiff, Spreads, or_iff_right hall, leaveGroups_orders orders.counts .sorted]
    rfl

/-- **One operation.** -/
theorem Healthy.step_balanced (h : Healthy sc) {r : Request} (hmove : ¬ r.IsMove)
    (hkeeps : KeepsOwner (last sc) r) (hstep : sc.apply orders r = some sc')
    (hbalanced : ∀ cfg ∈ sc.configs, Balanced cfg) :
    (∀ cfg ∈ sc'.configs, Balanced cfg) ↔ Spreads (last sc) r := by
  have hpush : (∃ cfg, sc' = sc.push cfg ∧ (Balanced cfg ↔ Spreads (last sc) r)) →
      ((∀ cfg ∈ sc'.configs, Balanced cfg) ↔ Spreads (last sc) r) := by
    rintro ⟨cfg, rfl, hiff⟩
    rw [← hiff]
    refine ⟨fun hall => hall cfg (List.mem_append_right _ (List.mem_singleton_self _)),
      fun hcfg c hc => ?_⟩
    rcases List.mem_append.mp hc with hold | hnew
    · exact hbalanced c hold
    · rwa [List.mem_singleton.mp hnew]
  cases r with
  | join servers => exact hpush (h.join_balanced hstep)
  | leave gids => exact hpush (h.leave_balanced hkeeps hstep)
  | move shard gid => exact absurd trivial hmove
  | query =>
    cases hstep
    exact ⟨fun _ => trivial, fun _ => hbalanced⟩

end Step

theorem Healthy.balanced_iff {as : List (Orders × Request)} {sc sc' : ShardCtrler} (h : Healthy sc)
    (hbalanced : ∀ cfg ∈ sc.configs, Balanced cfg) (hrun : controller.run sc as = some sc')
    (hadm : controller.Along (fun sc a => Admissible (last sc) a.2 ∧ ¬ a.2.IsMove) sc as)
    (hkeeps : controller.Along (fun sc a => KeepsOwner (last sc) a.2) sc as) :
    (∀ cfg ∈ sc'.configs, Balanced cfg) ↔
      controller.Along (fun sc a => Spreads (last sc) a.2) sc as := by
  induction as generalizing sc with
  | nil =>
    cases hrun
    exact ⟨fun _ => trivial, fun _ => hbalanced⟩
  | cons a rest ih =>
    obtain ⟨sc₁, hstep, hrest⟩ := Option.bind_eq_some_iff.mp hrun
    obtain ⟨⟨hadm₀, hmove⟩, hadm⟩ := hadm
    obtain ⟨hkeeps₀, hkeeps⟩ := hkeeps
    simp only [System.Along, hstep] at hadm hkeeps ⊢
    have hhealthy := (h.step hadm₀ hstep).1 hkeeps₀
    have hiff := h.step_balanced hmove hkeeps₀ hstep hbalanced
    by_cases hspreads : Spreads (last sc) a.2
    · rw [ih hhealthy (hiff.mpr hspreads) hrest hadm hkeeps]
      exact ⟨fun hall => ⟨hspreads, hall⟩, fun hall => hall.2⟩
    · refine ⟨fun hall => absurd (hiff.mp fun cfg hcfg => ?_) hspreads,
        fun hall => absurd hall.1 hspreads⟩
      exact hall cfg (configs_subset hrest hcfg)

/-- **Balance.** In a run of admissible joins and leaves whose leaves take all groups away or keep
an owner, all configurations are balanced if and only if every request hands an even configuration
to `rebalanceConfig`. -/
theorem configs_balanced_iff (as : List (Orders × Request)) (sc : ShardCtrler)
    (hrun : controller.run controller.init as = some sc)
    (hadm : controller.Along (fun sc a => Admissible (last sc) a.2 ∧ ¬ a.2.IsMove)
      controller.init as)
    (hkeeps : controller.Along (fun sc a => KeepsOwner (last sc) a.2) controller.init as) :
    (∀ cfg ∈ sc.configs, Balanced cfg) ↔
      controller.Along (fun sc a => Spreads (last sc) a.2) controller.init as := by
  refine healthy_init.balanced_iff (fun cfg hcfg => ?_) hrun hadm hkeeps
  cases List.mem_singleton.mp hcfg
  exact fun g hg => absurd hg (Finset.notMem_empty g)

/-! ### Two runs -/

/-- Three groups, then a fourth, then one leaves. -/
def oneByOne : List (Orders × Request) :=
  [(sortedOrders, .join (.ofList [(1, []), (2, []), (3, [])])),
   (sortedOrders, .join (.ofList [(4, [])])), (sortedOrders, .leave [2])]

theorem oneByOne_runs : (controller.run controller.init oneByOne).isSome = true := by
  decide +kernel

theorem configs_balanced_oneByOne : ∃ sc, controller.run controller.init oneByOne = some sc ∧
    ∀ cfg ∈ sc.configs, Balanced cfg := by
  obtain ⟨sc, hsc⟩ := Option.isSome_iff_exists.mp oneByOne_runs
  exact ⟨sc, hsc, (configs_balanced_iff oneByOne sc hsc (by decide +kernel) (by decide +kernel)).mpr
    (by decide +kernel)⟩

/-- Two groups with five shards each, then two more at once. -/
def twoByTwo : List (Orders × Request) :=
  [(sortedOrders, .join (.ofList [(1, []), (2, [])])),
   (sortedOrders, .join (.ofList [(3, []), (4, [])]))]

/-- The run is one of admissible joins, and group 1 ends up with four shards and all others with
two. -/
theorem configs_unbalanced_twoByTwo :
    controller.Along (fun sc a => Admissible (last sc) a.2 ∧ ¬ a.2.IsMove) controller.init twoByTwo ∧
    ∃ sc, controller.run controller.init twoByTwo = some sc ∧
      shardCount (last sc) 1 = 4 ∧ shardCount (last sc) 2 = 2 ∧ shardCount (last sc) 3 = 2 ∧
      shardCount (last sc) 4 = 2 ∧ ∃ cfg ∈ sc.configs, ¬ Balanced cfg := by
  refine ⟨by decide +kernel, ?_⟩
  have hrun : ((controller.run controller.init twoByTwo).map fun sc =>
      decide (shardCount (last sc) 1 = 4 ∧ shardCount (last sc) 2 = 2 ∧ shardCount (last sc) 3 = 2 ∧
        shardCount (last sc) 4 = 2 ∧ ∃ cfg ∈ sc.configs, ¬ Balanced cfg)) = some true := by
    decide +kernel
  obtain ⟨sc, hsc, hbad⟩ := Option.map_eq_some_iff.mp hrun
  exact ⟨sc, hsc, of_decide_eq_true hbad⟩

end RaftLabs.ShardCtrler
