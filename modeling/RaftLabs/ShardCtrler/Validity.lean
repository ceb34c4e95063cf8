import RaftLabs.ShardCtrler.Rebalance

/-! When the controller's configurations are valid.

A configuration with groups should give every shard to one of them. Joins and moves see to
that. A `Leave` first hands the shards of the leaving groups to a temporary owner, which it
looks for among the owners that stay. When groups stay but none of them owns a shard, there
is no such owner: the shards go to gid 0, and `rebalanceConfig`, for which gid 0 is an owner
like any other, leaves it at least its share. So the configurations are valid exactly when no
`Leave` meets this case. -/
namespace RaftLabs.ShardCtrler
open Lib

/-- A configuration with groups gives every shard to one of them. -/
def Valid (cfg : Config) : Prop :=
  cfg.groups.keys.Nonempty → ∀ s, cfg.shards s ∈ cfg.groups.keys

/-- The latest configuration. -/
def last (sc : ShardCtrler) : Config := sc.configs.getLast?.getD {}

/-- The requests that clients are supposed to make: joins of new groups with positive gids,
leaves of present groups, moves of a shard to a present group. -/
def Admissible (cfg : Config) : Request → Prop
  | .join servers => servers.keys.Nonempty ∧ ∀ g ∈ servers.keys, 0 < g ∧ g ∉ cfg.groups.keys
  | .leave gids => ∀ g ∈ gids, g ∈ cfg.groups.keys
  | .move shard gid => 0 ≤ shard ∧ shard < nShards ∧ gid ∈ cfg.groups.keys
  | .query => True

/-- A leave takes all groups away, or a group that stays owns a shard. -/
def KeepsOwner (cfg : Config) : Request → Prop
  | .leave gids => (∀ g ∈ cfg.groups.keys, g ∈ gids) ∨
      ∃ s, cfg.shards s ∈ cfg.groups.keys ∧ cfg.shards s ∉ gids
  | _ => True

instance (cfg : Config) : (r : Request) → Decidable (Admissible cfg r)
  | .join _ => inferInstanceAs (Decidable (_ ∧ _))
  | .leave gids => inferInstanceAs (Decidable (∀ g ∈ gids, g ∈ cfg.groups.keys))
  | .move _ _ => inferInstanceAs (Decidable (_ ∧ _))
  | .query => isTrue trivial

instance (cfg : Config) : (r : Request) → Decidable (KeepsOwner cfg r)
  | .leave _ => inferInstanceAs (Decidable (_ ∨ _))
  | .join _ | .move _ _ | .query => isTrue trivial

instance (cfg : Config) : Decidable (Valid cfg) := by unfold Valid; infer_instance

/-- A valid configuration with positive gids, and gid 0 everywhere when there is no group. -/
structure Placed (cfg : Config) : Prop where
  positive : ∀ g ∈ cfg.groups.keys, 0 < g
  unowned : cfg.groups.keys = ∅ → ∀ s, cfg.shards s = 0
  valid : Valid cfg

/-! ### The temporary owner -/

theorem mem_keys_gid2ShardNum {gids : List Int} {shards : Shard → Int} {g : Int} :
    g ∈ (gid2ShardNum gids shards).keys ↔ ∃ s, shards s ∉ gids ∧ shards s = g := by
  rw [gid2ShardNum, GoMap.mem_keys_foldl_count]
  simp

theorem gid2ShardNum_pos {gids : List Int} {shards : Shard → Int} {g : Int}
    (h : g ∈ (gid2ShardNum gids shards).keys) : 0 < (gid2ShardNum gids shards).getD g 0 := by
  obtain ⟨s, hs, hg⟩ := mem_keys_gid2ShardNum.mp h
  rw [gid2ShardNum, GoMap.getD_foldl_count]
  refine Nat.lt_of_lt_of_le ?_ (Nat.le_add_left _ _)
  exact List.countP_pos_iff.mpr ⟨s, List.mem_finRange s, decide_eq_true ⟨hs, hg⟩⟩

/-- When some group that stays owns a shard, the temporary owner is such a group. -/
theorem tGid_mem (order : RangeOrder Int) {m : GoMap Int Nat} (hne : m.keys.Nonempty)
    (hpos : ∀ g ∈ m.keys, 0 < m.getD g 0) : tGid order m ∈ m.keys := by
  -- from the first round on, the current choice is a key
  have hround : ∀ gs : List Int, (∀ g ∈ gs, g ∈ m.keys) → ∀ t, t ∈ m.keys ∨
      (gs ≠ [] ∧ m.getD t 0 = 0) → gs.foldl (fun tGid gid =>
        if m.getD tGid 0 < m.getD gid 0 then gid
        else if m.getD gid 0 = m.getD tGid 0 then min tGid gid else tGid) t ∈ m.keys := by
    intro gs
    induction gs with
    | nil => exact fun _ t ht => ht.resolve_right fun h => h.1 rfl
    | cons g rest ih =>
      intro hgs t ht
      have hg := hgs g List.mem_cons_self
      refine ih (fun g' hg' => hgs g' (List.mem_cons_of_mem _ hg')) _ (.inl ?_)
      dsimp only
      split
      · exact hg
      · rename_i hlt
        rcases ht with ht | ⟨_, ht⟩
        · split
          · rcases min_choice t g with h | h <;> rw [h]
            exacts [ht, hg]
          · exact ht
        · rw [ht] at hlt
          exact absurd (hpos g hg) hlt
  obtain ⟨g, hg⟩ := hne
  refine hround _ (fun g hg => (order.mem _ _).mp hg) 0 ?_
  by_cases h0 : (0 : Int) ∈ m.keys
  · exact .inl h0
  · refine .inr ⟨List.ne_nil_of_mem ((order.mem _ _).mpr hg), ?_⟩
    rw [GoMap.getD, GoMap.get?_eq_none.mpr h0]
    rfl

theorem tGid_empty (order : RangeOrder Int) {m : GoMap Int Nat} (h : m.keys = ∅) :
    tGid order m = 0 := by
  have hnil : order.list m.keys = [] := by
    rw [h]
    exact List.eq_nil_iff_forall_not_mem.mpr fun g hg => by simpa using (order.mem _ _).mp hg
  rw [tGid, hnil]
  rfl

/-! ### One operation -/

section Step
variable {sc : ShardCtrler} (orders : Orders)

theorem len_ne_zero {groups : GoMap Int (List String)} : groups.len ≠ 0 ↔ groups.keys.Nonempty :=
  Finset.card_ne_zero

/-- A new configuration starts as a copy of the latest one. -/
theorem exists_newConfig (hsc : sc.configs ≠ []) (h : Placed (last sc)) :
    ∃ cfg, sc.newConfig orders = some cfg ∧ cfg.shards = (last sc).shards ∧
      cfg.groups = (last sc).groups ∧ Placed cfg := by
  rw [last, List.getLast?_eq_some_getLast hsc, Option.getD_some] at h ⊢
  have hgroups := groups_deepCopy orders.copy (sc.configs.getLast hsc)
  refine ⟨{ deepCopy orders.copy (sc.configs.getLast hsc) with num := sc.configs.length },
    by rw [newConfig, List.getLast?_eq_some_getLast hsc]; rfl, rfl, hgroups, ?_, ?_, ?_⟩
  · exact hgroups ▸ h.positive
  · exact hgroups ▸ h.unowned
  · exact fun hne s => hgroups ▸ h.valid (hgroups ▸ hne) s

/-- Rebalancing keeps a configuration valid. -/
theorem rebalanceConfig_valid (cfg : Config)
    (hcfg : ∀ s, cfg.shards s ∈ cfg.groups.keys) : ∃ shards,
      rebalanceConfig orders cfg = some { cfg with shards := shards } ∧
      ∀ s, shards s ∈ cfg.groups.keys := by
  obtain ⟨shards, hreb, hwithin, -⟩ :=
    rebalanceConfig_spec orders cfg (len_ne_zero.mpr ⟨_, hcfg ⟨0, by decide⟩⟩)
  refine ⟨shards, hreb, fun s => (hwithin s).elim ?_ id⟩
  rintro ⟨s', hs'⟩
  exact hs' ▸ hcfg s'

theorem placed_of_owned {cfg : Config} (hpos : ∀ g ∈ cfg.groups.keys, 0 < g)
    (hcfg : ∀ s, cfg.shards s ∈ cfg.groups.keys) : Placed cfg where
  positive := hpos
  unowned h s := by
    have := hcfg s
    rw [h] at this
    exact absurd this (Finset.notMem_empty _)
  valid _ := hcfg

/-- The first join, and a join after every group has left. -/
theorem initConfifg_placed (order : RangeOrder Int) (cfg : Config)
    {servers : GoMap Int (List String)} (hne : servers.keys.Nonempty)
    (hpos : ∀ g ∈ servers.keys, 0 < g) :
    ∃ cfg', initConfifg order cfg servers = some cfg' ∧ Placed cfg' := by
  have hperm := List.perm_insertionSort (· ≤ ·) (order.list servers.keys)
  obtain ⟨g, hg⟩ := hne
  have hlen : 0 < ((order.list servers.keys).insertionSort (· ≤ ·)).length :=
    List.length_pos_of_mem (hperm.mem_iff.mpr ((order.mem _ _).mpr hg))
  rw [initConfifg, dif_pos hlen]
  refine ⟨_, rfl, placed_of_owned hpos fun s => ?_⟩
  exact (order.mem _ _).mp (hperm.mem_iff.mp (List.get_mem _ _))

theorem doJoin_placed (hsc : sc.configs ≠ []) (h : Placed (last sc))
    {servers : GoMap Int (List String)} (hne : servers.keys.Nonempty)
    (hnew : ∀ g ∈ servers.keys, 0 < g ∧ g ∉ (last sc).groups.keys) :
    ∃ cfg, sc.doJoin orders servers = some (sc.push cfg) ∧ Placed cfg := by
  obtain ⟨cfg, hcopy, -, -, hcfg⟩ := exists_newConfig orders hsc h
  rw [doJoin, hcopy]
  dsimp only [Option.bind_some]
  by_cases h0 : cfg.shards 0 = 0
  · rw [if_pos h0]
    obtain ⟨cfg', hinit, hcfg'⟩ :=
      initConfifg_placed orders.servers cfg hne fun g hg => (hnew g hg).1
    exact ⟨cfg', by rw [hinit]; rfl, hcfg'⟩
  · rw [if_neg h0]
    have howned : ∀ s, cfg.shards s ∈ cfg.groups.keys := by
      refine hcfg.valid (Finset.nonempty_iff_ne_empty.mpr fun hempty => ?_)
      exact h0 (hcfg.unowned hempty 0)
    obtain ⟨shards, hreb, hshards⟩ :=
      rebalanceConfig_valid orders (joinGroups orders.servers cfg servers)
        fun s => (mem_keys_joinGroups _).mpr (.inr (howned s))
    refine ⟨_, by rw [hreb]; rfl, placed_of_owned (fun g hg => ?_) hshards⟩
    exact ((mem_keys_joinGroups _).mp hg).elim (fun hg => (hnew g hg).1) (hcfg.positive g)

/-- The shards of the groups that leave, when nobody stays who owns a shard. -/
theorem shards_leaveGroups_of_gone (order : RangeOrder Int) {cfg : Config} {gids : List Int}
    (hgone : ∀ s, cfg.shards s ∈ gids) (s : Shard) : (leaveGroups order cfg gids).shards s = 0 := by
  have hnone : (gid2ShardNum gids cfg.shards).keys = ∅ := by
    refine Finset.eq_empty_of_forall_notMem fun g hg => ?_
    obtain ⟨s', hs', -⟩ := mem_keys_gid2ShardNum.mp hg
    exact hs' (hgone s')
  rw [leaveGroups]
  dsimp only
  rw [if_pos (hgone s), tGid_empty order hnone]

/-- The same when there is no owner to begin with. -/
theorem shards_leaveGroups_of_zero (order : RangeOrder Int) {cfg : Config} {gids : List Int}
    (hzero : ∀ s, cfg.shards s = 0) (s : Shard) : (leaveGroups order cfg gids).shards s = 0 := by
  by_cases h0 : (0 : Int) ∈ gids
  · exact shards_leaveGroups_of_gone order (fun s => hzero s ▸ h0) s
  · rw [leaveGroups]
    dsimp only
    rw [if_neg (by rwa [hzero s]), hzero s]

/-- Every group leaves. -/
theorem placed_leaveAll (order : RangeOrder Int) {cfg : Config} {gids : List Int}
    (h : Placed cfg) (hall : ∀ g ∈ cfg.groups.keys, g ∈ gids) :
    (leaveGroups order cfg gids).groups.keys = ∅ ∧ Placed (leaveGroups order cfg gids) := by
  have hempty : (leaveGroups order cfg gids).groups.keys = ∅ := by
    refine Finset.eq_empty_of_forall_notMem fun g hg => ?_
    obtain ⟨hnot, hin⟩ := (mem_keys_leaveGroups _).mp hg
    exact hnot (hall g hin)
  refine ⟨hempty, fun g hg => ?_, fun _ s => ?_, fun hne => ?_⟩
  · exact h.positive g ((mem_keys_leaveGroups order).mp hg).2
  · by_cases hne : cfg.groups.keys.Nonempty
    · exact shards_leaveGroups_of_gone order (fun s => hall _ (h.valid hne s)) s
    · exact shards_leaveGroups_of_zero order (h.unowned (Finset.not_nonempty_iff_eq_empty.mp hne)) s
  · rw [hempty] at hne
    exact absurd hne Finset.not_nonempty_empty

/-- A group that stays owns a shard: it or another such group takes over. -/
theorem owned_leaveGroups (order : RangeOrder Int) {cfg : Config} {gids : List Int}
    (howned : ∀ s, cfg.shards s ∈ cfg.groups.keys) {s₀ : Shard} (hstay : cfg.shards s₀ ∉ gids)
    (s : Shard) : (leaveGroups order cfg gids).shards s ∈
      (leaveGroups order cfg gids).groups.keys := by
  have howner := tGid_mem order (m := gid2ShardNum gids cfg.shards)
    ⟨_, mem_keys_gid2ShardNum.mpr ⟨s₀, hstay, rfl⟩⟩ fun g hg => gid2ShardNum_pos hg
  obtain ⟨s₁, hs₁, heq⟩ := mem_keys_gid2ShardNum.mp howner
  rw [mem_keys_leaveGroups]
  show (if _ then _ else _) ∉ gids ∧ (if _ then _ else _) ∈ _
  split
  · exact heq ▸ ⟨hs₁, howned s₁⟩
  · exact ⟨‹_›, howned s⟩

/-- A leave that keeps an owner, or takes all groups away. -/
theorem doLeave_placed (hsc : sc.configs ≠ []) (h : Placed (last sc)) {gids : List Int}
    (hkeeps : KeepsOwner (last sc) (.leave gids)) :
    ∃ cfg, sc.doLeave orders gids = some (sc.push cfg) ∧ Placed cfg := by
  obtain ⟨cfg, hcopy, hs, hg, hcfg⟩ := exists_newConfig orders hsc h
  rw [KeepsOwner, ← hs, ← hg] at hkeeps
  rw [doLeave, hcopy]
  dsimp only [Option.bind_some]
  rcases hkeeps with hall | ⟨s₀, hs₀, hstay⟩
  · obtain ⟨hempty, hplaced⟩ := placed_leaveAll orders.counts hcfg hall
    rw [rebalanceConfig, if_pos (by rw [GoMap.len, hempty]; rfl)]
    exact ⟨_, rfl, hplaced⟩
  · obtain ⟨shards, hreb, hshards⟩ := rebalanceConfig_valid orders _
      (owned_leaveGroups orders.counts (hcfg.valid ⟨_, hs₀⟩) hstay)
    refine ⟨_, by rw [hreb]; rfl, placed_of_owned (fun g hg => ?_) hshards⟩
    exact hcfg.positive g ((mem_keys_leaveGroups orders.counts).mp hg).2

/-- A leave that takes the last owner away but not the last group. -/
theorem doLeave_invalid (hsc : sc.configs ≠ []) (h : Placed (last sc)) {gids : List Int}
    (hkeeps : ¬ KeepsOwner (last sc) (.leave gids)) :
    ∃ cfg, sc.doLeave orders gids = some (sc.push cfg) ∧ ¬ Valid cfg := by
  obtain ⟨cfg, hcopy, hs, hg, hcfg⟩ := exists_newConfig orders hsc h
  rw [KeepsOwner, ← hs, ← hg] at hkeeps
  obtain ⟨hstays, hnone⟩ := not_or.mp hkeeps
  push Not at hstays hnone
  obtain ⟨g₀, hg₀, hg₀'⟩ := hstays
  have hgone := fun s => hnone s (hcfg.valid ⟨g₀, hg₀⟩ s)
  have hgroups : g₀ ∈ (leaveGroups orders.counts cfg gids).groups.keys :=
    (mem_keys_leaveGroups _).mpr ⟨hg₀', hg₀⟩
  -- all shards are at gid 0 now, which is at least its share
  have hshare : max 1 (nShards / (leaveGroups orders.counts cfg gids).groups.len) ≤
      ((List.finRange nShards).filter
        ((leaveGroups orders.counts cfg gids).shards · = 0)).length := by
    rw [List.filter_eq_self.mpr fun s _ =>
      decide_eq_true (shards_leaveGroups_of_gone orders.counts hgone s), List.length_finRange]
    exact max_le (by decide) (Nat.div_le_self _ _)
  obtain ⟨shards, hreb, -, hfloor⟩ :=
    rebalanceConfig_spec orders _ (len_ne_zero.mpr ⟨g₀, hgroups⟩)
  refine ⟨{ leaveGroups orders.counts cfg gids with shards := shards }, ?_, fun hvalid => ?_⟩
  · rw [doLeave, hcopy]
    dsimp only [Option.bind_some]
    rw [hreb]
    rfl
  · obtain ⟨s, hs⟩ := hfloor 0 hshare
    have hin : shards s ∈ (leaveGroups orders.counts cfg gids).groups.keys :=
      hvalid ⟨g₀, hgroups⟩ s
    rw [hs] at hin
    exact absurd (hcfg.positive 0 ((mem_keys_leaveGroups orders.counts).mp hin).2) (lt_irrefl 0)

theorem doMove_placed (hsc : sc.configs ≠ []) (h : Placed (last sc)) {shard gid : Int}
    (h0 : 0 ≤ shard) (hlt : shard < nShards) (hgid : gid ∈ (last sc).groups.keys) :
    ∃ cfg, sc.doMove orders shard gid = some (sc.push cfg) ∧ Placed cfg := by
  obtain ⟨cfg, hcopy, -, hg, hcfg⟩ := exists_newConfig orders hsc h
  rw [← hg] at hgid
  rw [doMove, hcopy]
  dsimp only [Option.bind_some]
  rw [dif_pos ⟨h0, by omega⟩]
  refine ⟨_, rfl, placed_of_owned hcfg.positive ?_⟩
  exact (Function.forall_update_iff cfg.shards fun _ g => g ∈ cfg.groups.keys).mpr
    ⟨hgid, fun s _ => hcfg.valid ⟨gid, hgid⟩ s⟩

end Step

/-! ### Runs -/

/-- All configurations so far are valid, and the latest one is in order. -/
structure Healthy (sc : ShardCtrler) : Prop where
  nonempty : sc.configs ≠ []
  valid : ∀ cfg ∈ sc.configs, Valid cfg
  placed : Placed (last sc)

theorem healthy_init : Healthy controller.init where
  nonempty := List.cons_ne_nil _ _
  valid cfg hcfg := by
    cases List.mem_singleton.mp hcfg
    exact fun hne => absurd hne Finset.not_nonempty_empty
  placed :=
    { positive := fun g hg => absurd hg (Finset.notMem_empty g)
      unowned := fun _ _ => rfl
      valid := fun hne => absurd hne Finset.not_nonempty_empty }

theorem Healthy.push {sc : ShardCtrler} (h : Healthy sc) {cfg : Config} (hcfg : Placed cfg) :
    Healthy (sc.push cfg) where
  nonempty := List.append_ne_nil_of_right_ne_nil _ (List.cons_ne_nil _ _)
  valid c hc := by
    rcases List.mem_append.mp hc with hc | hc
    · exact h.valid c hc
    · rw [List.mem_singleton.mp hc]
      exact hcfg.valid
  placed := by
    rw [last, ShardCtrler.push, List.getLast?_concat]
    exact hcfg

/-- One operation keeps the controller healthy exactly when it keeps an owner. -/
theorem Healthy.step {sc sc' : ShardCtrler} (h : Healthy sc) {orders : Orders} {r : Request}
    (hadm : Admissible (last sc) r) (hstep : sc.apply orders r = some sc') :
    (KeepsOwner (last sc) r → Healthy sc') ∧
      (¬ KeepsOwner (last sc) r → ∃ cfg ∈ sc'.configs, ¬ Valid cfg) := by
  cases r with
  | join servers =>
    obtain ⟨cfg, hdo, hcfg⟩ := doJoin_placed orders h.nonempty h.placed hadm.1 hadm.2
    cases hdo.symm.trans hstep
    exact ⟨fun _ => h.push hcfg, fun hnot => absurd trivial hnot⟩
  | leave gids =>
    refine ⟨fun hkeeps => ?_, fun hkeeps => ?_⟩
    · obtain ⟨cfg, hdo, hcfg⟩ := doLeave_placed orders h.nonempty h.placed hkeeps
      cases hdo.symm.trans hstep
      exact h.push hcfg
    · obtain ⟨cfg, hdo, hcfg⟩ := doLeave_invalid orders h.nonempty h.placed hkeeps
      cases hdo.symm.trans hstep
      exact ⟨cfg, List.mem_append_right _ (List.mem_singleton_self _), hcfg⟩
  | move shard gid =>
    obtain ⟨cfg, hdo, hcfg⟩ :=
      doMove_placed orders h.nonempty h.placed hadm.1 hadm.2.1 hadm.2.2
    cases hdo.symm.trans hstep
    exact ⟨fun _ => h.push hcfg, fun hnot => absurd trivial hnot⟩
  | query =>
    cases hstep
    exact ⟨fun _ => h, fun hnot => absurd trivial hnot⟩

/-- Configurations are never dropped. -/
theorem configs_subset {as : List (Orders × Request)} {sc sc' : ShardCtrler}
    (hrun : controller.run sc as = some sc') : sc.configs ⊆ sc'.configs := by
  have hpush : ∀ (sc : ShardCtrler) cfg, sc.configs ⊆ (sc.push cfg).configs := fun sc cfg =>
    List.subset_append_left _ _
  induction as generalizing sc with
  | nil =>
    cases hrun
    exact List.Subset.refl _
  | cons a rest ih =>
    obtain ⟨sc₁, hstep, hrest⟩ := Option.bind_eq_some_iff.mp hrun
    refine List.Subset.trans ?_ (ih hrest)
    change sc.apply a.1 a.2 = some sc₁ at hstep
    cases hr : a.2 with
    | join servers =>
      rw [hr, apply, doJoin] at hstep
      obtain ⟨cfg, _, hcfg⟩ := Option.bind_eq_some_iff.mp hstep
      obtain ⟨cfg', _, rfl⟩ := Option.map_eq_some_iff.mp hcfg
      exact hpush sc cfg'
    | leave gids =>
      rw [hr, apply, doLeave] at hstep
      obtain ⟨cfg, _, hcfg⟩ := Option.bind_eq_some_iff.mp hstep
      obtain ⟨cfg', _, rfl⟩ := Option.map_eq_some_iff.mp hcfg
      exact hpush sc cfg'
    | move shard gid =>
      rw [hr, apply, doMove] at hstep
      obtain ⟨cfg, _, hcfg⟩ := Option.bind_eq_some_iff.mp hstep
      split at hcfg
      · cases hcfg
        exact hpush sc _
      · cases hcfg
    | query =>
      rw [hr] at hstep
      cases hstep
      exact List.Subset.refl _

theorem Healthy.valid_iff {as : List (Orders × Request)} {sc sc' : ShardCtrler} (h : Healthy sc)
    (hrun : controller.run sc as = some sc')
    (hadm : controller.Along (fun sc a => Admissible (last sc) a.2) sc as) :
    (∀ cfg ∈ sc'.configs, Valid cfg) ↔
      controller.Along (fun sc a => KeepsOwner (last sc) a.2) sc as := by
  induction as generalizing sc with
  | nil =>
    cases hrun
    exact ⟨fun _ => trivial, fun _ => h.valid⟩
  | cons a rest ih =>
    obtain ⟨sc₁, hstep, hrest⟩ := Option.bind_eq_some_iff.mp hrun
    obtain ⟨hadm₀, hadm⟩ := hadm
    obtain ⟨hgood, hbad⟩ := h.step hadm₀ hstep
    simp only [System.Along, hstep] at hadm ⊢
    by_cases hkeeps : KeepsOwner (last sc) a.2
    · rw [ih (hgood hkeeps) hrest hadm]
      exact ⟨fun hall => ⟨hkeeps, hall⟩, fun hall => hall.2⟩
    · obtain ⟨cfg, hcfg, hinvalid⟩ := hbad hkeeps
      exact ⟨fun hvalid => absurd (hvalid cfg (configs_subset hrest hcfg)) hinvalid,
        fun hall => absurd hall.1 hkeeps⟩

/-- **Valid configurations.** A run of admissible requests produces only valid configurations
if and only if each of its leaves takes all groups away or keeps a group that owns a shard. -/
theorem configs_valid_iff (as : List (Orders × Request)) (sc : ShardCtrler)
    (hrun : controller.run controller.init as = some sc)
    (hadm : controller.Along (fun sc a => Admissible (last sc) a.2) controller.init as) :
    (∀ cfg ∈ sc.configs, Valid cfg) ↔
      controller.Along (fun sc a => KeepsOwner (last sc) a.2) controller.init as :=
  healthy_init.valid_iff hrun hadm

/-! ### Two runs -/

/-- The orders in which every loop goes through its keys upwards. -/
def sortedOrders : Orders := ⟨.sorted, .sorted, .sorted, .sorted, .sorted, .sorted⟩

/-- One more group than there are shards, so the last one owns none. -/
def elevenGroups : GoMap Int (List String) :=
  .ofList ((List.range 11).map fun k => ((k : Int) + 1, []))

/-- All groups leave that own a shard. -/
def ownersLeave : List (Orders × Request) :=
  [(sortedOrders, .join elevenGroups),
   (sortedOrders, .leave [1, 2, 3, 4, 5, 6, 7, 8, 9, 10])]

/-- Two groups share the shards, one of them leaves. -/
def oneLeaves : List (Orders × Request) :=
  [(sortedOrders, .join (.ofList [(1, []), (2, [])])), (sortedOrders, .move 0 2),
   (sortedOrders, .leave [1])]

theorem oneLeaves_runs : (controller.run controller.init oneLeaves).isSome = true := by
  decide +kernel

theorem configs_valid_oneLeaves : ∃ sc, controller.run controller.init oneLeaves = some sc ∧
    ∀ cfg ∈ sc.configs, Valid cfg := by
  obtain ⟨sc, hsc⟩ := Option.isSome_iff_exists.mp oneLeaves_runs
  exact ⟨sc, hsc, (configs_valid_iff oneLeaves sc hsc (by decide +kernel)).mpr (by decide +kernel)⟩

/-- The run is one of admissible requests, and its last configuration has a group but gives
every shard to gid 0. -/
theorem configs_invalid_ownersLeave :
    controller.Along (fun sc a => Admissible (last sc) a.2) controller.init ownersLeave ∧
    ∃ sc, controller.run controller.init ownersLeave = some sc ∧
      (last sc).groups.keys = {11} ∧ (∀ s, (last sc).shards s = 0) ∧
      ∃ cfg ∈ sc.configs, ¬ Valid cfg := by
  refine ⟨by decide +kernel, ?_⟩
  have hrun : ((controller.run controller.init ownersLeave).map fun sc =>
      decide ((last sc).groups.keys = {11} ∧ (∀ s, (last sc).shards s = 0) ∧
        ∃ cfg ∈ sc.configs, ¬ Valid cfg)) = some true := by
    decide +kernel
  obtain ⟨sc, hsc, hbad⟩ := Option.map_eq_some_iff.mp hrun
  exact ⟨sc, hsc, of_decide_eq_true hbad⟩

end RaftLabs.ShardCtrler
