import RaftLabs.ShardCtrler.Movement

/-! Rebalancing moves surplus to deficit and nothing else.

When all owners are groups, the loop of `rebalanceConfig` takes shards only from groups above the
average, never below it, and gives them only to groups below, never above. It stops when one side
is used up, so it moves as many shards as the smaller side holds. -/
namespace RaftLabs.ShardCtrler
open Lib

/-- What the groups have above the average, all together. -/
def surplus (cfg : Config) : Nat :=
  ∑ g ∈ cfg.groups.keys, (shardCount cfg g - average cfg.groups.len)

/-- What the groups miss to the average, all together. -/
def deficit (cfg : Config) : Nat :=
  ∑ g ∈ cfg.groups.keys, (average cfg.groups.len - shardCount cfg g)

/-- The shards that change their owner. -/
def movedShards (cfg cfg' : Config) : Finset Shard :=
  Finset.univ.filter fun s => cfg'.shards s ≠ cfg.shards s

namespace Rebalanced
variable {cfg cfg' : Config} (h : Rebalanced cfg cfg')
include h

/-- Who has no more at the end has got nothing. -/
theorem subset_of_le {g : Int} (hle : shardCount cfg' g ≤ shardCount cfg g) (s : Shard)
    (hs : cfg'.shards s = g) : cfg.shards s = g := by
  by_contra hnew
  have := (h.gained g).mp ⟨s, hs, hnew⟩
  omega

/-- Who has no less at the end has lost nothing. -/
theorem keeps_of_le {g : Int} (hle : shardCount cfg g ≤ shardCount cfg' g) (s : Shard)
    (hs : cfg.shards s = g) : cfg'.shards s = g := by
  by_contra hlost
  subst hs
  have htaken := (h.moved s).mp hlost
  rw [Nat.sub_eq_zero_of_le hle, List.take_zero] at htaken
  exact List.not_mem_nil htaken

/-- A gid loses as many shards as it has less at the end. -/
theorem card_moved_of (g : Int) :
    ((movedShards cfg cfg').filter fun s => cfg.shards s = g).card =
      shardCount cfg g - shardCount cfg' g := by
  have hlost : (movedShards cfg cfg').filter (fun s => cfg.shards s = g) =
      ((shardsOf cfg g).take (shardCount cfg g - shardCount cfg' g)).toFinset := by
    ext s
    rw [Finset.mem_filter, movedShards, Finset.mem_filter, List.mem_toFinset]
    constructor
    · rintro ⟨⟨-, hmoved⟩, rfl⟩
      exact (h.moved s).mp hmoved
    · intro htaken
      obtain rfl := mem_shardsOf.mp (List.mem_of_mem_take htaken)
      exact ⟨⟨Finset.mem_univ s, (h.moved s).mpr htaken⟩, rfl⟩
  have hnodup : ((shardsOf cfg g).take (shardCount cfg g - shardCount cfg' g)).Nodup :=
    ((List.nodup_finRange nShards).filter _).sublist (List.take_sublist _ _)
  rw [hlost, List.toFinset_card_of_nodup hnodup, List.length_take, length_shardsOf,
    Nat.min_eq_left (Nat.sub_le _ _)]

/-- What is moved is what there is to move. -/
theorem card_moved : (movedShards cfg cfg').card =
    Leveling.volume (parties cfg) (average cfg.groups.len) (shardCount cfg) := by
  have howner : ∀ s ∈ movedShards cfg cfg', cfg.shards s ∈ parties cfg := fun s _ =>
    Finset.mem_union_left _ (Finset.mem_image_of_mem _ (Finset.mem_univ s))
  rw [Finset.card_eq_sum_card_fiberwise howner, ← h.exchanged.sum_given]
  exact Finset.sum_congr rfl fun g _ => h.card_moved_of g

end Rebalanced

/-- When all owners are groups, nobody else is looked at. -/
theorem parties_of_owned {cfg : Config} (howned : ∀ s, cfg.shards s ∈ cfg.groups.keys) :
    parties cfg = cfg.groups.keys :=
  Finset.union_eq_right.mpr (Finset.image_subset_iff.mpr fun s _ => howned s)

/-- **Rebalancing moves only surplus to deficit.** A group above the average keeps some of its
shards, at least the average; a group below it keeps all of its shards and gets at most to it; a
group at the average is left alone. At the end nobody misses a shard while somebody has one too
many, every shard is with a group, and no more shards than necessary have moved. -/
theorem rebalanceConfig_moves_surplus (orders : Orders) {cfg : Config}
    (howned : ∀ s, cfg.shards s ∈ cfg.groups.keys) :
    ∃ cfg', rebalanceConfig orders cfg = some cfg' ∧ cfg'.groups = cfg.groups ∧
      (∀ g ∈ cfg.groups.keys, average cfg.groups.len < shardCount cfg g →
        (∀ s, cfg'.shards s = g → cfg.shards s = g) ∧
          average cfg.groups.len ≤ shardCount cfg' g) ∧
      (∀ g ∈ cfg.groups.keys, shardCount cfg g < average cfg.groups.len →
        (∀ s, cfg.shards s = g → cfg'.shards s = g) ∧
          shardCount cfg' g ≤ average cfg.groups.len) ∧
      (∀ g ∈ cfg.groups.keys, shardCount cfg g = average cfg.groups.len →
        ∀ s, cfg'.shards s = g ↔ cfg.shards s = g) ∧
      (∀ g ∈ cfg.groups.keys, ∀ g' ∈ cfg.groups.keys,
        ¬ (shardCount cfg' g < average cfg.groups.len ∧
          average cfg.groups.len < shardCount cfg' g')) ∧
      (∀ s, cfg'.shards s ∈ cfg'.groups.keys) ∧
      (movedShards cfg cfg').card = min (surplus cfg) (deficit cfg) := by
  have hne : cfg.groups.len ≠ 0 := len_ne_zero.mpr ⟨_, howned 0⟩
  have hparties := parties_of_owned howned
  obtain ⟨cfg', hreb, h⟩ := rebalanceConfig_rebalances orders cfg hne
  have hgroups := rebalanceConfig_groups hreb
  have hcard := h.card_moved
  have hwithin := h.within
  obtain ⟨hside, htowards, -, -, -⟩ := h.exchanged
  rw [hparties] at hcard hwithin hside htowards
  refine ⟨cfg', hreb, hgroups, ?above, ?below, ?level, ?sides, fun s => hgroups ▸ hwithin s, hcard⟩
  case above =>
    intro g hg habove
    have := htowards g hg
    exact ⟨h.subset_of_le (by omega), by omega⟩
  case below =>
    intro g hg hbelow
    have := htowards g hg
    exact ⟨h.keeps_of_le (by omega), by omega⟩
  case level =>
    intro g hg heq s
    have := htowards g hg
    exact ⟨h.subset_of_le (by omega) s, h.keeps_of_le (by omega) s⟩
  case sides =>
    rintro g hg g' hg' ⟨hlow, hhigh⟩
    rcases hside with hge | hle
    · exact absurd (hge g hg) (Nat.not_le.mpr hlow)
    · exact absurd (hle g' hg') (Nat.not_le.mpr hhigh)

/-- Three groups with six, three and one shards. -/
def uneven : Config where
  num := 4
  shards s := if s.val < 6 then 1 else if s.val < 9 then 2 else 3
  groups := .ofList [(1, []), (2, []), (3, [])]

/-- Two of the six go to the group with one. -/
theorem rebalanceConfig_moves_surplus_uneven : (∀ s, uneven.shards s ∈ uneven.groups.keys) ∧
    surplus uneven = 3 ∧ deficit uneven = 2 ∧
    ∃ cfg', rebalanceConfig sortedOrders uneven = some cfg' ∧ (movedShards uneven cfg').card = 2 := by
  have howned : ∀ s, uneven.shards s ∈ uneven.groups.keys := by decide +kernel
  have hsurplus : surplus uneven = 3 := by decide +kernel
  have hdeficit : deficit uneven = 2 := by decide +kernel
  obtain ⟨cfg', hreb, -, -, -, -, -, -, hcard⟩ :=
    rebalanceConfig_moves_surplus sortedOrders howned
  rw [hsurplus, hdeficit] at hcard
  exact ⟨howned, hsurplus, hdeficit, cfg', hreb, hcard⟩

end RaftLabs.ShardCtrler
