import RaftLabs.ShardCtrler.Balance
import RaftLabs.ShardCtrler.Panics

/-! How many shards the controller moves, and which.

A join should move shards only to the groups that join, a leave only those of the groups that
leave. `rebalanceConfig` knows nothing of this: it moves the first shards of the owners with most
to the owners with least, and a leave has handed over the shards of the leaving groups to one
owner before. So a join moves no more than it should when the joining groups come early enough in
the order of the loads, and a leave when the shards that were handed over come early enough among
the shards of their temporary owner. -/
namespace RaftLabs.ShardCtrler
open Lib

/-! ### Loads -/

/-- Everybody `rebalanceConfig` looks at: the owners and the groups. -/
def parties (cfg : Config) : Finset Int := Finset.univ.image cfg.shards ∪ cfg.groups.keys

/-- The share of one of `n` groups. -/
def average (n : Nat) : Nat := max 1 (nShards / n)

/-- The order in which owners are served: by load, then by gid. -/
def Before (load : Int → Nat) (a b : Int) : Prop := load a < load b ∨ (load a = load b ∧ a < b)

instance (load : Int → Nat) : DecidableRel (Before load) := fun a b => by
  unfold Before
  infer_instance

/-- The shards of the leaving groups. -/
def orphans (cfg : Config) (gids : List Int) : Finset Shard :=
  Finset.univ.filter fun s => cfg.shards s ∈ gids

/-- Of the owners that stay, `t` has the most shards, and the least gid among these. -/
def Heir (cfg : Config) (gids : List Int) (t : Int) : Prop :=
  (∃ s, cfg.shards s = t) ∧ t ∉ gids ∧ ∀ s, cfg.shards s ∉ gids →
    shardCount cfg (cfg.shards s) < shardCount cfg t ∨
      (shardCount cfg (cfg.shards s) = shardCount cfg t ∧ t ≤ cfg.shards s)

/-- The loads when `t` has taken over the orphans. -/
def inherited (cfg : Config) (gids : List Int) (t g : Int) : Nat :=
  shardCount cfg g + if g = t then (orphans cfg gids).card else 0

/-- The orphans below all shards that were `t`'s before. -/
def lead (cfg : Config) (gids : List Int) (t : Int) : Finset Shard :=
  (orphans cfg gids).filter fun s => ∀ s', cfg.shards s' = t → s < s'

/-- A join: shard 0 is not given out; or the joining groups take all that has to be moved, before
it is the turn of anybody else. A leave: all that has to be moved are orphans that stand before the
heir's own shards. -/
def Economical (cfg : Config) : Request → Prop
  | .join servers => cfg.shards 0 = 0 ∨
      ∀ p ∈ parties cfg ∪ servers.keys, p ∉ servers.keys →
        shardCount cfg p < average (cfg.groups.keys ∪ servers.keys).card →
        Leveling.volume (parties cfg ∪ servers.keys)
            (average (cfg.groups.keys ∪ servers.keys).card) (shardCount cfg) ≤
          ∑ q ∈ parties cfg ∪ servers.keys with Before (shardCount cfg) q p,
            (average (cfg.groups.keys ∪ servers.keys).card - shardCount cfg q)
  | .leave gids => ∀ s, Heir cfg gids (cfg.shards s) →
      Leveling.volume ((parties cfg).filter (· ∉ gids))
          (average (cfg.groups.keys.filter (· ∉ gids)).card) (inherited cfg gids (cfg.shards s)) ≤
        (lead cfg gids (cfg.shards s)).card
  | .move _ _ | .query => True

/-- The shards that a join moves go to groups it adds, those that a leave moves come from groups it
removes. -/
def Minimal (cfg cfg' : Config) : Request → Prop
  | .join servers => ∀ s, cfg'.shards s ≠ cfg.shards s → cfg'.shards s ∈ servers.keys
  | .leave gids => ∀ s, cfg'.shards s ≠ cfg.shards s → cfg.shards s ∈ gids
  | .move _ _ | .query => True

/-- A join that finds groups, or a leave that keeps one. -/
def Regroups (cfg : Config) : Request → Prop
  | .join _ => cfg.groups.keys.Nonempty
  | .leave gids => ∃ g ∈ cfg.groups.keys, g ∉ gids
  | .move _ _ | .query => False

instance (cfg : Config) (gids : List Int) (t : Int) : Decidable (Heir cfg gids t) :=
  inferInstanceAs (Decidable (_ ∧ _))

instance (cfg : Config) : (r : Request) → Decidable (Economical cfg r)
  | .join _ => inferInstanceAs (Decidable (_ ∨ _))
  | .leave gids => inferInstanceAs (Decidable (∀ s, Heir cfg gids (cfg.shards s) → _))
  | .move _ _ | .query => isTrue trivial

instance (cfg cfg' : Config) : (r : Request) → Decidable (Minimal cfg cfg' r)
  | .join servers => inferInstanceAs
      (Decidable (∀ s, cfg'.shards s ≠ cfg.shards s → cfg'.shards s ∈ servers.keys))
  | .leave gids => inferInstanceAs
      (Decidable (∀ s, cfg'.shards s ≠ cfg.shards s → cfg.shards s ∈ gids))
  | .move _ _ | .query => isTrue trivial

instance (cfg : Config) : (r : Request) → Decidable (Regroups cfg r)
  | .join _ => inferInstanceAs (Decidable cfg.groups.keys.Nonempty)
  | .leave gids => inferInstanceAs (Decidable (∃ g ∈ cfg.groups.keys, g ∉ gids))
  | .move _ _ | .query => isFalse id

/-! ### The shards that are moved -/

/-- What the loop makes of the shards of one gid: the first ones are given away while it is above
the average, or others are added while it is below. -/
def Tracks (avg : Nat) (l₀ l : List Shard) : Prop :=
  (∃ k, l = l₀.drop k ∧ (k = 0 ∨ avg ≤ l.length)) ∨ (∃ l', l = l₀ ++ l' ∧ l.length ≤ avg)

theorem Tracks.give {avg part : Nat} {l₀ l : List Shard} (h : Tracks avg l₀ l)
    (habove : avg < l.length) (hpart : part ≤ l.length - avg) : Tracks avg l₀ (l.drop part) := by
  rcases h with ⟨k, rfl, -⟩ | ⟨l', -, hle⟩
  · refine .inl ⟨k + part, List.drop_drop, .inr ?_⟩
    rw [List.length_drop]
    omega
  · omega

theorem Tracks.take {avg : Nat} {l₀ l l' : List Shard} (h : Tracks avg l₀ l)
    (hbelow : l.length < avg) (hl' : l'.length ≤ avg - l.length) : Tracks avg l₀ (l ++ l') := by
  have hlen : (l ++ l').length ≤ avg := by
    rw [List.length_append]
    omega
  rcases h with ⟨k, rfl, hk⟩ | ⟨l'', rfl, -⟩
  · obtain rfl := hk.resolve_right (by omega)
    exact .inr ⟨l', rfl, hlen⟩
  · exact .inr ⟨l'' ++ l', List.append_assoc _ _ _, hlen⟩

/-- What is given away is as many of the first shards as are missing at the end. -/
theorem Tracks.mem_iff {avg : Nat} {l₀ l : List Shard} (h : Tracks avg l₀ l) (hnodup : l₀.Nodup)
    {s : Shard} (hs : s ∈ l₀) : s ∉ l ↔ s ∈ l₀.take (l₀.length - l.length) := by
  rcases h with ⟨k, rfl, -⟩ | ⟨l', rfl, -⟩
  · rw [List.length_drop]
    have htake : l₀.take (l₀.length - (l₀.length - k)) = l₀.take k := by
      rcases Nat.le_total k l₀.length with hk | hk
      · rw [Nat.sub_sub_self hk]
      · rw [Nat.sub_eq_zero_of_le hk, Nat.sub_zero, List.take_length, List.take_of_length_le hk]
    rw [htake]
    have hsplit : s ∈ l₀.take k ∨ s ∈ l₀.drop k := by
      rwa [← List.mem_append, List.take_append_drop]
    exact ⟨fun hnot => hsplit.resolve_right hnot,
      fun ht hd => List.disjoint_take_drop hnodup (Nat.le_refl k) ht hd⟩
  · rw [List.length_append, Nat.sub_eq_zero_of_le (Nat.le_add_right _ _), List.take_zero]
    exact ⟨fun hnot => absurd (List.mem_append_left l' hs) hnot, fun h => absurd h List.not_mem_nil⟩

/-- Something is added exactly when there is more at the end. -/
theorem Tracks.exists_new_iff {avg : Nat} {l₀ l : List Shard} (h : Tracks avg l₀ l)
    (hnodup : l.Nodup) : (∃ s ∈ l, s ∉ l₀) ↔ l₀.length < l.length := by
  rcases h with ⟨k, rfl, -⟩ | ⟨l', rfl, -⟩
  · rw [List.length_drop]
    exact ⟨fun ⟨s, hs, hnot⟩ => absurd (List.mem_of_mem_drop hs) hnot, fun hlt => by omega⟩
  · rw [List.length_append]
    constructor
    · rintro ⟨s, hs, hnot⟩
      have := List.length_pos_of_mem ((List.mem_append.mp hs).resolve_left hnot)
      omega
    · intro hlt
      obtain ⟨s, hs⟩ := List.exists_mem_of_length_pos (l := l') (by omega)
      exact ⟨s, List.mem_append_right _ hs,
        fun hs₀ => (List.nodup_append.mp hnodup).2.2 s hs₀ s hs rfl⟩

theorem tracks_rebalanceLoop (orders : Orders) (cfg : Config) (avg : Nat) :
    ∃ m, rebalanceLoop (sortedGids orders cfg (gid2shards cfg.shards)) avg 0
      ((sortedGids orders cfg (gid2shards cfg.shards)).length - 1) (gid2shards cfg.shards) = some m ∧
      Partition m ∧ ∀ g, Tracks avg ((gid2shards cfg.shards).getD g []) (m.getD g []) := by
  have hlen : 0 < (sortedGids orders cfg (gid2shards cfg.shards)).length :=
    sortedGids_length_pos (mem_keys_gid2shards.mpr ⟨0, rfl⟩)
  refine rebalanceLoop_rule (sortedGids_nodup orders cfg _) ?_ (Nat.sub_lt hlen Nat.one_pos)
    ⟨partition_gid2shards cfg.shards, fun g => .inl ⟨0, rfl, .inl rfl⟩⟩
  rintro m lo hi ⟨hm, htracks⟩ - - hne hlo hhi
  refine ⟨hm.moveShards hne, fun g => ?_⟩
  rw [getD_moveShards]
  split
  · subst g
    exact (htracks hi.gid).give hhi (by omega)
  · split
    · subst g
      refine (htracks lo.gid).take hlo ?_
      rw [List.length_take]
      omega
    · exact htracks g

/-- The shards of a gid, in ascending order. -/
def shardsOf (cfg : Config) (g : Int) : List Shard :=
  (List.finRange nShards).filter (cfg.shards · = g)

theorem mem_shardsOf {cfg : Config} {g : Int} {s : Shard} :
    s ∈ shardsOf cfg g ↔ cfg.shards s = g := by
  simp [shardsOf]

theorem length_shardsOf (cfg : Config) (g : Int) : (shardsOf cfg g).length = shardCount cfg g := rfl

theorem sorted_shardsOf (cfg : Config) (g : Int) : (shardsOf cfg g).Pairwise (· < ·) :=
  (List.pairwise_lt_finRange nShards).filter _

/-- What rebalancing `cfg` to `cfg'` does: loads are levelled, who has less at the end has lost its
first shards, and who has gained a shard has more. -/
structure Rebalanced (cfg cfg' : Config) : Prop where
  exchanged : Leveling.Exchanged (parties cfg) (Before (shardCount cfg)) (average cfg.groups.len)
    (shardCount cfg) (shardCount cfg')
  moved : ∀ s, cfg'.shards s ≠ cfg.shards s ↔ s ∈ (shardsOf cfg (cfg.shards s)).take
    (shardCount cfg (cfg.shards s) - shardCount cfg' (cfg.shards s))
  gained : ∀ g, (∃ s, cfg'.shards s = g ∧ cfg.shards s ≠ g) ↔ shardCount cfg g < shardCount cfg' g
  within : ∀ s, cfg'.shards s ∈ parties cfg

theorem toFinset_sortedGids_parties (orders : Orders) (cfg : Config) :
    ((sortedGids orders cfg (gid2shards cfg.shards)).map (·.gid)).toFinset = parties cfg := by
  have howners : (gid2shards cfg.shards).keys = Finset.univ.image cfg.shards := by
    ext g
    simp [mem_keys_gid2shards]
  ext g
  rw [List.mem_toFinset, (sortedGids_perm orders cfg _).mem_iff, List.mem_append, List.mem_filter,
    RangeOrder.mem_list, RangeOrder.mem_list, parties, ← howners, Finset.mem_union]
  by_cases hg : g ∈ (gid2shards cfg.shards).keys <;> simp [hg]

theorem gidAt_before {orders : Orders} {cfg : Config} {a b : Nat}
    (ha : a < (sortedGids orders cfg (gid2shards cfg.shards)).length)
    (hb : b < (sortedGids orders cfg (gid2shards cfg.shards)).length)
    (h : Before (shardCount cfg) (gidAt (sortedGids orders cfg (gid2shards cfg.shards)) a)
      (gidAt (sortedGids orders cfg (gid2shards cfg.shards)) b)) : a < b := by
  by_contra hle
  have hsorted : (sortedGids orders cfg (gid2shards cfg.shards)).Pairwise GidPair.le :=
    List.pairwise_insertionSort _ _
  have hcount : ∀ k (hk : k < (sortedGids orders cfg (gid2shards cfg.shards)).length),
      shardCount cfg (gidAt (sortedGids orders cfg (gid2shards cfg.shards)) k) =
        (sortedGids orders cfg (gid2shards cfg.shards))[k].count := by
    intro k hk
    rw [count_of_mem_sortedGids (List.getElem_mem hk), length_gid2shards,
      gidAt_eq (List.getElem?_eq_getElem hk)]
  rw [Before, hcount a ha, hcount b hb, gidAt_eq (List.getElem?_eq_getElem ha),
    gidAt_eq (List.getElem?_eq_getElem hb)] at h
  rcases Nat.lt_or_eq_of_le (Nat.not_lt.mp hle) with hlt | rfl
  · have := List.pairwise_iff_getElem.mp hsorted b a hb ha hlt
    unfold GidPair.le at this
    omega
  · omega

/-- The loop levels the loads, seen as loads of gids. -/
theorem exchanged_rebalanceLoop {orders : Orders} {cfg : Config} {avg : Nat}
    {m : GoMap Int (List Shard)}
    (hloop : rebalanceLoop (sortedGids orders cfg (gid2shards cfg.shards)) avg 0
      ((sortedGids orders cfg (gid2shards cfg.shards)).length - 1) (gid2shards cfg.shards) = some m)
    {load : Int → Nat} (hload : ∀ g, (m.getD g []).length = load g) :
    Leveling.Exchanged (parties cfg) (Before (shardCount cfg)) avg (shardCount cfg) load := by
  have hgids := sortedGids_nodup orders cfg (gid2shards cfg.shards)
  have hlen : 0 < (sortedGids orders cfg (gid2shards cfg.shards)).length :=
    sortedGids_length_pos (mem_keys_gid2shards.mpr ⟨0, rfl⟩)
  have hlevel := Leveling.exchanged_level avg hlen
    fun a b hab hb => countAt_sorted orders cfg (gid2shards cfg.shards) hab hb
  rw [← countAt_rebalanceLoop hgids hloop] at hlevel
  refine hlevel.of_places (image_gidAt.trans (toFinset_sortedGids_parties orders cfg))
    (injOn_gidAt hgids) (fun a ha b hb => gidAt_before ha hb) (fun a ha => ?_) fun a ha => ?_
  · rw [countAt_eq (List.getElem?_eq_getElem ha), length_gid2shards,
      gidAt_eq (List.getElem?_eq_getElem ha)]
  · rw [countAt_eq (List.getElem?_eq_getElem ha), hload, gidAt_eq (List.getElem?_eq_getElem ha)]

section Assigned
variable {cfg : Config} {avg : Nat} {m : GoMap Int (List Shard)} (hm : Partition m)
  (htracks : ∀ g, Tracks avg ((gid2shards cfg.shards).getD g []) (m.getD g []))
  (order : RangeOrder Int)
include hm

theorem mem_getD_assignShards (s : Shard) : s ∈ m.getD (assignShards order m cfg.shards s) [] := by
  obtain ⟨g, hg⟩ := hm.cover s
  rwa [assignShards_eq hm _ hg]

include htracks

/-- A shard moves when it is among the first of its gid that are given away. -/
theorem assignShards_ne_iff (s : Shard) :
    assignShards order m cfg.shards s ≠ cfg.shards s ↔ s ∈ (shardsOf cfg (cfg.shards s)).take
      (shardCount cfg (cfg.shards s) - (m.getD (cfg.shards s) []).length) := by
  rw [← length_shardsOf]
  have hiff := (htracks (cfg.shards s)).mem_iff ((partition_gid2shards _).nodup _)
    (mem_gid2shards.mpr rfl)
  rw [getD_gid2shards] at hiff
  refine Iff.trans (not_congr ⟨fun heq => ?_, assignShards_eq hm _⟩) hiff
  exact heq ▸ mem_getD_assignShards hm order s

/-- A gid gets a shard when it has more at the end. -/
theorem exists_assignShards_iff (g : Int) :
    (∃ s, assignShards order m cfg.shards s = g ∧ cfg.shards s ≠ g) ↔
      shardCount cfg g < (m.getD g []).length := by
  rw [← length_gid2shards]
  refine Iff.trans ⟨?_, ?_⟩ ((htracks g).exists_new_iff (hm.nodup g))
  · rintro ⟨s, rfl, hnot⟩
    exact ⟨s, mem_getD_assignShards hm order s, fun hs => hnot (mem_gid2shards.mp hs)⟩
  · rintro ⟨s, hs, hnot⟩
    exact ⟨s, assignShards_eq hm _ hs, fun heq => hnot (mem_gid2shards.mpr heq)⟩

end Assigned

theorem rebalanceConfig_rebalances (orders : Orders) (cfg : Config) (hne : cfg.groups.len ≠ 0) :
    ∃ cfg', rebalanceConfig orders cfg = some cfg' ∧ Rebalanced cfg cfg' := by
  obtain ⟨m, hloop, hm, htracks⟩ := tracks_rebalanceLoop orders cfg (average cfg.groups.len)
  have hcount : ∀ g, (m.getD g []).length =
      shardCount { cfg with shards := assignShards orders.assign m cfg.shards } g :=
    length_assignShards hm rfl
  have hreb : rebalanceConfig orders cfg =
      some { cfg with shards := assignShards orders.assign m cfg.shards } := by
    rw [rebalanceConfig, if_neg hne]
    dsimp only
    rw [show max 1 (nShards / cfg.groups.len) = average cfg.groups.len from rfl, hloop]
    rfl
  refine ⟨_, hreb, exchanged_rebalanceLoop hloop hcount, ?_, ?_, ?_⟩
  · intro s
    rw [← hcount]
    exact assignShards_ne_iff hm htracks orders.assign s
  · intro g
    rw [← hcount]
    exact exists_assignShards_iff hm htracks orders.assign g
  · obtain ⟨shards, hspec, hwithin, -⟩ := rebalanceConfig_spec orders cfg hne
    cases hreb.symm.trans hspec
    intro s
    rw [parties, Finset.mem_union, Finset.mem_image]
    exact (hwithin s).imp_left fun howner => howner.imp fun s' hs' => ⟨Finset.mem_univ s', hs'⟩

/-! ### Joins -/

theorem before_irrefl (load : Int → Nat) (g : Int) : ¬ Before load g g := by
  unfold Before
  omega

theorem before_total (load : Int → Nat) {a b : Int} (h : a ≠ b) :
    Before load a b ∨ Before load b a := by
  unfold Before
  omega

/-- **When a join that rebalances moves shards to the joining groups only.** -/
theorem Rebalanced.join_minimal_iff {order : RangeOrder Int} {cfg cfg' : Config}
    {servers : GoMap Int (List String)} (h : Rebalanced (joinGroups order cfg servers) cfg')
    (hzero : cfg.shards 0 ≠ 0) :
    Minimal cfg cfg' (.join servers) ↔ Economical cfg (.join servers) := by
  have hgroups : (joinGroups order cfg servers).groups.keys = cfg.groups.keys ∪ servers.keys := by
    ext g
    rw [mem_keys_joinGroups, Finset.mem_union, or_comm]
  have hparties : parties (joinGroups order cfg servers) = parties cfg ∪ servers.keys := by
    rw [parties, hgroups, parties, Finset.union_assoc]
    rfl
  have hexchanged := h.exchanged
  rw [hparties, GoMap.len, hgroups] at hexchanged
  change Leveling.Exchanged _ (Before (shardCount cfg)) _ (shardCount cfg) _ at hexchanged
  have htakes := fun p (hp : p ∈ parties cfg ∪ servers.keys) =>
    hexchanged.takes_iff hp (before_irrefl _ p) fun a _ hne => before_total _ hne
  rw [Economical, or_iff_right hzero]
  constructor
  · intro hmin p hp hnew hbelow
    by_contra hmore
    obtain ⟨s, rfl, hs⟩ := (h.gained p).mpr ((htakes p hp).mpr ⟨hbelow, Nat.not_le.mp hmore⟩)
    exact hnew (hmin s (Ne.symm hs))
  · intro hall s hs
    by_contra hnew
    have hp := hparties ▸ h.within s
    obtain ⟨hbelow, hmore⟩ := (htakes _ hp).mp ((h.gained _).mp ⟨s, rfl, Ne.symm hs⟩)
    exact absurd (hall _ hp hnew hbelow) (Nat.not_le.mpr hmore)

/-! ### Leaves -/

/-- The first elements of an ascending list all satisfy `p` exactly when as many elements with `p`
come before all others. -/
theorem forall_mem_take_iff {α : Type*} [LinearOrder α] {l : List α} (hl : l.Pairwise (· < ·))
    {p : α → Prop} {k : Nat} (hk : k ≤ l.length) {first : Finset α}
    (hfirst : ∀ x, x ∈ first ↔ x ∈ l ∧ p x ∧ ∀ y ∈ l, ¬ p y → x < y) :
    (∀ x ∈ l.take k, p x) ↔ k ≤ first.card := by
  induction l generalizing k first with
  | nil =>
    obtain rfl := Nat.le_zero.mp hk
    simp
  | cons x rest ih =>
    cases k with
    | zero => simp
    | succ k =>
      obtain ⟨hleast, hrest⟩ := List.pairwise_cons.mp hl
      have hk := Nat.le_of_succ_le_succ hk
      by_cases hx : p x
      · have hmem : x ∈ first :=
          (hfirst x).mpr ⟨List.mem_cons_self, hx, fun y hy hnot =>
            hleast y ((List.mem_cons.mp hy).resolve_left fun heq => hnot (heq ▸ hx))⟩
        have herase : ∀ z, z ∈ first.erase x ↔ z ∈ rest ∧ p z ∧ ∀ y ∈ rest, ¬ p y → z < y := by
          intro z
          have hne : z ∈ rest → z ≠ x := fun hz => (hleast z hz).ne'
          rw [Finset.mem_erase, hfirst, List.mem_cons, List.forall_mem_cons]
          exact ⟨fun ⟨hne, hz, hp, _, hbelow⟩ => ⟨hz.resolve_left hne, hp, hbelow⟩,
            fun ⟨hz, hp, hbelow⟩ => ⟨hne hz, .inr hz, hp, fun hnot => absurd hx hnot, hbelow⟩⟩
        rw [← Finset.card_erase_add_one hmem, Nat.succ_le_succ_iff, ← ih hrest hk herase,
          List.take_succ_cons, List.forall_mem_cons]
        exact and_iff_right hx
      · have hempty : first = ∅ := by
          refine Finset.eq_empty_of_forall_notMem fun z hz => ?_
          obtain ⟨hz, -, hbelow⟩ := (hfirst z).mp hz
          have hlt := hbelow x List.mem_cons_self hx
          rcases List.mem_cons.mp hz with rfl | hz
          · exact lt_irrefl _ hlt
          · exact lt_asymm hlt (hleast z hz)
        rw [hempty, List.take_succ_cons, List.forall_mem_cons]
        exact ⟨fun h => absurd h.1 hx, fun h => absurd h (Nat.not_succ_le_zero k)⟩

theorem mem_orphans {cfg : Config} {gids : List Int} {s : Shard} :
    s ∈ orphans cfg gids ↔ cfg.shards s ∈ gids := by
  simp [orphans]

section Leave
variable {order : RangeOrder Int} {cfg cfg' : Config} {gids : List Int} {t : Int}

theorem getD_gid2ShardNum {g : Int} (hg : g ∉ gids) :
    (gid2ShardNum gids cfg.shards).getD g 0 = shardCount cfg g := by
  rw [gid2ShardNum, GoMap.getD_foldl_count, List.countP_eq_length_filter, ← length_shardsOf,
    shardsOf, GoMap.getD, GoMap.get?_empty, Option.getD_none, Nat.zero_add]
  congr 1
  refine List.filter_congr fun s _ => decide_eq_decide.mpr ⟨fun h => h.2, fun h => ⟨h ▸ hg, h⟩⟩

/-- The temporary owner is the heir, if there is one. -/
theorem Heir.eq_tGid (h : Heir cfg gids t) : tGid order (gid2ShardNum gids cfg.shards) = t := by
  obtain ⟨⟨s, hs⟩, hstays, hmost⟩ := h
  have hkey : t ∈ (gid2ShardNum gids cfg.shards).keys :=
    mem_keys_gid2ShardNum.mpr ⟨s, hs ▸ hstays, hs⟩
  refine (tGid_better order hkey).antisymm ?_
  obtain ⟨s', hs', heq⟩ := mem_keys_gid2ShardNum.mp
    (tGid_mem order ⟨t, hkey⟩ fun g hg => gid2ShardNum_pos hg)
  have hbetter := hmost s' hs'
  rwa [heq, ← getD_gid2ShardNum hstays, ← getD_gid2ShardNum (heq ▸ hs')] at hbetter

theorem exists_heir {s₀ : Shard} (hs₀ : cfg.shards s₀ ∉ gids) : ∃ s, Heir cfg gids (cfg.shards s) := by
  obtain ⟨s, hs, heq⟩ := mem_keys_gid2ShardNum.mp (tGid_mem .sorted
    ⟨_, mem_keys_gid2ShardNum.mpr ⟨s₀, hs₀, rfl⟩⟩ fun g hg => gid2ShardNum_pos hg)
  refine ⟨s, ⟨s, rfl⟩, hs, fun s' hs' => ?_⟩
  have hbetter := tGid_better .sorted (mem_keys_gid2ShardNum.mpr ⟨s', hs', rfl⟩)
  rw [← heq] at hbetter
  rwa [Better, getD_gid2ShardNum hs, getD_gid2ShardNum hs'] at hbetter

end Leave

/-- The configuration `parked` in which the heir `t` has the orphans and the leaving groups are
gone. -/
structure HandedOver (cfg : Config) (gids : List Int) (t : Int) (parked : Config) : Prop where
  heir : Heir cfg gids t
  shards : ∀ s, parked.shards s = if cfg.shards s ∈ gids then t else cfg.shards s
  groups : parked.groups.keys = cfg.groups.keys.filter (· ∉ gids)

theorem handedOver_leaveGroups (order : RangeOrder Int) {cfg : Config} {gids : List Int} {t : Int}
    (ht : Heir cfg gids t) : HandedOver cfg gids t (leaveGroups order cfg gids) where
  heir := ht
  shards s := by rw [leaveGroups, ht.eq_tGid]
  groups := by
    ext g
    rw [mem_keys_leaveGroups, Finset.mem_filter, and_comm]

namespace HandedOver
variable {cfg cfg' parked : Config} {gids : List Int} {t : Int}
  (h : HandedOver cfg gids t parked)
include h

theorem parties_eq : parties parked = (parties cfg).filter (· ∉ gids) := by
  obtain ⟨⟨s₀, hs₀⟩, hstays, -⟩ := h.heir
  ext g
  simp only [parties, Finset.mem_union, Finset.mem_image, Finset.mem_filter, Finset.mem_univ,
    true_and, h.groups, h.shards]
  constructor
  · rintro (⟨s, rfl⟩ | ⟨hg, hgids⟩)
    · split
      · exact ⟨.inl ⟨s₀, hs₀⟩, hstays⟩
      · exact ⟨.inl ⟨s, rfl⟩, ‹_›⟩
    · exact ⟨.inr hg, hgids⟩
  · rintro ⟨⟨s, rfl⟩ | hg, hgids⟩
    · exact .inl ⟨s, if_neg hgids⟩
    · exact .inr ⟨hg, hgids⟩

theorem heir_mem : t ∈ parties parked := by
  obtain ⟨⟨s, rfl⟩, hstays, -⟩ := h.heir
  refine Finset.mem_union_left _ (Finset.mem_image.mpr ⟨s, Finset.mem_univ s, ?_⟩)
  rw [h.shards, if_neg hstays]

theorem stays {g : Int} (hg : g ∈ parties parked) : g ∉ gids := by
  rw [h.parties_eq] at hg
  exact (Finset.mem_filter.mp hg).2

theorem mem_shardsOf_heir {s : Shard} :
    s ∈ shardsOf parked t ↔ s ∈ orphans cfg gids ∨ cfg.shards s = t := by
  rw [mem_shardsOf, h.shards, mem_orphans]
  by_cases hs : cfg.shards s ∈ gids <;> simp [hs]

theorem shardCount_eq {g : Int} (hg : g ∉ gids) :
    shardCount parked g = inherited cfg gids t g := by
  have hdisjoint : Disjoint (Finset.univ.filter fun s => cfg.shards s = g) (orphans cfg gids) := by
    refine Finset.disjoint_left.mpr fun s hs horphan => hg ?_
    exact (Finset.mem_filter.mp hs).2 ▸ mem_orphans.mp horphan
  rw [inherited, shardCount, shardCount]
  split
  · subst g
    rw [← Finset.card_union_of_disjoint hdisjoint]
    congr 1
    ext s
    have hs := h.mem_shardsOf_heir (s := s)
    rw [mem_shardsOf] at hs
    simp [hs, or_comm]
  · rename_i hne
    rw [Nat.add_zero]
    refine congrArg Finset.card (Finset.filter_congr fun s _ => ?_)
    rw [h.shards s]
    split
    · rename_i hs
      exact ⟨fun heq => absurd heq.symm hne, fun heq => absurd (heq ▸ hs) hg⟩
    · rfl

/-- The lead are the orphans before all other shards of the heir. -/
theorem mem_lead {s : Shard} : s ∈ lead cfg gids t ↔ s ∈ shardsOf parked t ∧
    s ∈ orphans cfg gids ∧ ∀ s' ∈ shardsOf parked t, s' ∉ orphans cfg gids → s < s' := by
  have hown : ∀ s', s' ∈ shardsOf parked t ∧ s' ∉ orphans cfg gids ↔ cfg.shards s' = t := by
    intro s'
    rw [h.mem_shardsOf_heir]
    refine ⟨fun hs' => hs'.1.resolve_left hs'.2, fun heq => ⟨.inr heq, fun hs' => ?_⟩⟩
    exact h.heir.2.1 (heq ▸ mem_orphans.mp hs')
  rw [lead, Finset.mem_filter]
  constructor
  · rintro ⟨hs, hbelow⟩
    exact ⟨h.mem_shardsOf_heir.mpr (.inl hs), hs, fun s' hs' hnot =>
      hbelow s' ((hown s').mp ⟨hs', hnot⟩)⟩
  · rintro ⟨-, hs, hbelow⟩
    refine ⟨hs, fun s' hs' => ?_⟩
    obtain ⟨hin, hnot⟩ := (hown s').mpr hs'
    exact hbelow s' hin hnot

/-- Once the orphans have been handed over, only they may be moved. -/
theorem minimal_iff_moved : Minimal cfg cfg' (.leave gids) ↔
    ∀ s, cfg'.shards s ≠ parked.shards s → s ∈ orphans cfg gids := by
  refine forall_congr' fun s => ?_
  rw [h.shards, mem_orphans]
  split
  · exact ⟨fun _ _ => ‹_›, fun _ _ => ‹_›⟩
  · rfl

variable (hreb : Rebalanced parked cfg')
include hreb

/-- When nobody but the heir gives anything, the heir's first shards are moved. -/
theorem minimal_iff_of_others
    (hothers : ∀ g ∈ parties parked, g ≠ t → shardCount parked g - shardCount cfg' g = 0) :
    Minimal cfg cfg' (.leave gids) ↔
      Leveling.volume (parties parked) (average parked.groups.len) (shardCount parked) ≤
        (lead cfg gids t).card := by
  have hall := hreb.exchanged.given_of_others h.heir_mem hothers
  rw [h.minimal_iff_moved, ← hall, ← forall_mem_take_iff (k := shardCount parked t - _)
    (sorted_shardsOf parked t) (Nat.sub_le _ _) fun _ => h.mem_lead]
  constructor
  · intro hmin s hs
    have howner := mem_shardsOf.mp (List.mem_of_mem_take hs)
    exact hmin s ((hreb.moved s).mpr (by rwa [howner]))
  · intro hfirst s hs
    have hmoved := (hreb.moved s).mp hs
    by_cases howner : parked.shards s = t
    · rw [howner] at hmoved
      exact hfirst s hmoved
    · have hparty : parked.shards s ∈ parties parked :=
        Finset.mem_union_left _ (Finset.mem_image_of_mem _ (Finset.mem_univ s))
      rw [hothers _ hparty howner, List.take_zero] at hmoved
      exact absurd hmoved List.not_mem_nil

theorem others_of_minimal (hmin : Minimal cfg cfg' (.leave gids)) :
    ∀ g ∈ parties parked, g ≠ t → shardCount parked g - shardCount cfg' g = 0 := by
  intro g _ hne
  by_contra hgives
  -- the first shard of `g` is moved, and is no orphan
  have hlen : 0 < ((shardsOf parked g).take (shardCount parked g - shardCount cfg' g)).length := by
    rw [List.length_take, length_shardsOf]
    omega
  obtain ⟨s, hs⟩ := List.exists_mem_of_length_pos hlen
  have howner := mem_shardsOf.mp (List.mem_of_mem_take hs)
  have horphan := h.minimal_iff_moved.mp hmin s ((hreb.moved s).mpr (by rwa [howner]))
  have hheir := mem_shardsOf.mp (h.mem_shardsOf_heir.mpr (.inl horphan))
  exact hne (howner.symm.trans hheir)

theorem others_of_lead
    (hlead : Leveling.volume (parties parked) (average parked.groups.len) (shardCount parked) ≤
      (lead cfg gids t).card) :
    ∀ g ∈ parties parked, g ≠ t → shardCount parked g - shardCount cfg' g = 0 := by
  have horphans : (lead cfg gids t).card ≤ (orphans cfg gids).card := Finset.card_filter_le _ _
  -- the loads of the others were not above the heir's own
  have hload : ∀ g ∈ parties parked, g ≠ t →
      shardCount parked g + (orphans cfg gids).card ≤ shardCount parked t := by
    intro g hg hne
    rw [h.shardCount_eq (h.stays hg), h.shardCount_eq h.heir.2.1, inherited, inherited,
      if_neg hne, if_pos rfl]
    by_cases hown : ∃ s, cfg.shards s = g
    · obtain ⟨s, rfl⟩ := hown
      have := h.heir.2.2 s (h.stays hg)
      omega
    · have hnone : shardCount cfg g = 0 :=
        Finset.card_eq_zero.mpr (Finset.filter_eq_empty_iff.mpr fun s _ hs => hown ⟨s, hs⟩)
      omega
  rcases Nat.eq_zero_or_pos (Leveling.volume (parties parked) (average parked.groups.len)
    (shardCount parked)) with hzero | hpos
  · -- nothing is moved
    have hsum := hreb.exchanged.sum_given.trans hzero
    exact fun g hg _ => Finset.sum_eq_zero_iff.mp hsum g hg
  · refine hreb.exchanged.gives_last h.heir_mem (fun g hg hne => .inl ?_) ?_
    · have := hload g hg hne
      omega
    · by_cases hother : ∃ g ∈ parties parked, g ≠ t ∧ average parked.groups.len < shardCount parked g
      · obtain ⟨g, hg, hne, habove⟩ := hother
        have := hload g hg hne
        omega
      · have hsum : ∑ g ∈ parties parked, (shardCount parked g - average parked.groups.len) =
            shardCount parked t - average parked.groups.len := by
          refine Finset.sum_eq_single_of_mem t h.heir_mem fun g hg hne => ?_
          by_contra habove
          exact hother ⟨g, hg, hne, by omega⟩
        rw [← hsum]
        exact min_le_left _ _

/-- **When a leave moves shards of the leaving groups only.** -/
theorem minimal_iff : Minimal cfg cfg' (.leave gids) ↔
    Leveling.volume ((parties cfg).filter (· ∉ gids))
      (average (cfg.groups.keys.filter (· ∉ gids)).card) (inherited cfg gids t) ≤
        (lead cfg gids t).card := by
  have hvolume : Leveling.volume (parties parked) (average parked.groups.len) (shardCount parked) =
      Leveling.volume ((parties cfg).filter (· ∉ gids))
        (average (cfg.groups.keys.filter (· ∉ gids)).card) (inherited cfg gids t) := by
    have hload : ∀ g ∈ (parties cfg).filter (· ∉ gids), shardCount parked g = inherited cfg gids t g :=
      fun g hg => h.shardCount_eq (Finset.mem_filter.mp hg).2
    rw [GoMap.len, h.groups, h.parties_eq]
    exact congrArg₂ min (Finset.sum_congr rfl fun g hg => by rw [hload g hg])
      (Finset.sum_congr rfl fun g hg => by rw [hload g hg])
  rw [← hvolume]
  constructor
  · exact fun hmin => (h.minimal_iff_of_others hreb (h.others_of_minimal hreb hmin)).mp hmin
  · exact fun hlead => (h.minimal_iff_of_others hreb (h.others_of_lead hreb hlead)).mpr hlead

end HandedOver

theorem leave_minimal_iff {order : RangeOrder Int} {cfg cfg' : Config} {gids : List Int}
    (h : Rebalanced (leaveGroups order cfg gids) cfg') :
    Minimal cfg cfg' (.leave gids) ↔ Economical cfg (.leave gids) := by
  -- without an owner that stays, every shard is an orphan
  by_cases hgone : ∀ s, cfg.shards s ∈ gids
  · exact ⟨fun _ s ht => absurd (hgone s) ht.2.1, fun _ s _ => hgone s⟩
  · obtain ⟨s₀, hs₀⟩ := not_forall.mp hgone
    obtain ⟨s, ht⟩ := exists_heir hs₀
    have hiff := fun s (ht : Heir cfg gids (cfg.shards s)) =>
      (handedOver_leaveGroups order ht).minimal_iff h
    exact ⟨fun hmin s ht => (hiff s ht).mp hmin, fun hecon => (hiff s ht).mpr (hecon s ht)⟩

/-! ### Requests -/

/-- Every shard is given to a group of the first join. -/
theorem initConfifg_minimal {order : RangeOrder Int} {cfg cfg' : Config}
    {servers : GoMap Int (List String)} (h : initConfifg order cfg servers = some cfg') (s : Shard) :
    cfg'.shards s ∈ servers.keys := by
  unfold initConfifg at h
  dsimp only at h
  split at h
  · cases h
    exact order.mem_list.mp (List.mem_insertionSort _ |>.mp (List.get_mem _ _))
  · cases h

/-- **Minimal movement, one request.** -/
theorem apply_minimal_iff {sc : ShardCtrler} (hsc : sc.configs ≠ []) (orders : Orders) {r : Request}
    (hadm : Admissible (last sc) r) (hr : Regroups (last sc) r) :
    ∃ sc', sc.apply orders r = some sc' ∧
      (Minimal (last sc) (last sc') r ↔ Economical (last sc) r) := by
  obtain ⟨sc', hstep⟩ := Option.isSome_iff_exists.mp ((isSome_apply hsc orders r).mpr (by
    cases r with
    | join servers => exact fun _ => hadm.1
    | leave gids => trivial
    | move shard gid => exact hr.elim
    | query => exact hr.elim))
  refine ⟨sc', hstep, ?_⟩
  cases r with
  | join servers =>
    obtain ⟨cfg, hcopy, hjoin⟩ := Option.bind_eq_some_iff.mp hstep
    obtain ⟨cfg', hnext, rfl⟩ := Option.map_eq_some_iff.mp hjoin
    rw [last_push]
    have hcfg := newConfig_eq_last hcopy
    generalize cfg.num = num at hcfg
    subst hcfg
    split at hnext
    · rename_i hzero
      exact ⟨fun _ => .inl hzero, fun _ s _ => initConfifg_minimal hnext s⟩
    · rename_i hzero
      obtain ⟨g, hg⟩ := hadm.1
      obtain ⟨cfg'', hreb, hcfg''⟩ := rebalanceConfig_rebalances orders
        (joinGroups orders.servers { last sc with num := num } servers)
        (len_ne_zero.mpr ⟨g, (mem_keys_joinGroups orders.servers).mpr (.inl hg)⟩)
      cases hreb.symm.trans hnext
      exact hcfg''.join_minimal_iff hzero
  | leave gids =>
    obtain ⟨cfg, hcopy, hleave⟩ := Option.bind_eq_some_iff.mp hstep
    obtain ⟨cfg', hnext, rfl⟩ := Option.map_eq_some_iff.mp hleave
    rw [last_push]
    have hcfg := newConfig_eq_last hcopy
    generalize cfg.num = num at hcfg
    subst hcfg
    obtain ⟨g, hg, hstays⟩ := hr
    obtain ⟨cfg'', hreb, hcfg''⟩ := rebalanceConfig_rebalances orders
      (leaveGroups orders.counts { last sc with num := num } gids)
      (len_ne_zero.mpr ⟨g, (mem_keys_leaveGroups orders.counts).mpr ⟨hstays, hg⟩⟩)
    cases hreb.symm.trans hnext
    have hiff := leave_minimal_iff hcfg''
    exact hiff
  | move shard gid => exact hr.elim
  | query => exact hr.elim

/-- **Minimal movement.** In every configuration that joins of new groups and leaves of present ones
lead to, a further join that finds groups, or leave that keeps one, moves no more than it should if
and only if it is economical. -/
theorem minimal_movement_iff {sc : ShardCtrler}
    (h : controller.Reach (fun sc a => Admissible (last sc) a.2 ∧ ¬ a.2.IsMove) sc) (orders : Orders)
    (r : Request) (hadm : Admissible (last sc) r) (hr : Regroups (last sc) r) :
    ∃ sc', sc.apply orders r = some sc' ∧
      (Minimal (last sc) (last sc') r ↔ Economical (last sc) r) :=
  apply_minimal_iff (h.invariant (P := Numbered) numbered_init
    fun _ _ _ _ hsc _ hstep => hsc.apply hstep).configs_ne_nil orders hadm hr

/-! ### Two requests -/

/-- Three groups join. -/
def threeJoin : List (Orders × Request) :=
  [(sortedOrders, .join (.ofList [(1, []), (2, []), (3, [])]))]

def fourthJoins : Request := .join (.ofList [(4, [])])

theorem threeJoin_runs : ((controller.runWhere
    (fun sc a => Admissible (last sc) a.2 ∧ ¬ a.2.IsMove) controller.init threeJoin).map fun sc =>
      decide (Admissible (last sc) fourthJoins ∧ Regroups (last sc) fourthJoins ∧
        Economical (last sc) fourthJoins)) = some true := by
  decide +kernel

theorem minimal_movement_threeJoin : ∃ sc sc',
    controller.Reach (fun sc a => Admissible (last sc) a.2 ∧ ¬ a.2.IsMove) sc ∧
      sc.apply sortedOrders fourthJoins = some sc' ∧ Minimal (last sc) (last sc') fourthJoins := by
  obtain ⟨sc, hrun, hsc⟩ := Option.map_eq_some_iff.mp threeJoin_runs
  obtain ⟨hadm, hr, hecon⟩ := of_decide_eq_true hsc
  have hreach := System.reach_runWhere .init _ hrun
  obtain ⟨sc', hstep, hiff⟩ := minimal_movement_iff hreach sortedOrders fourthJoins hadm hr
  exact ⟨sc, sc', hreach, hstep, hiff.mpr hecon⟩

theorem threeJoin_leave_runs : ((controller.runWhere
    (fun sc a => Admissible (last sc) a.2 ∧ ¬ a.2.IsMove) controller.init threeJoin).bind fun sc =>
      (sc.apply sortedOrders (.leave [3])).map fun sc' =>
        decide (Admissible (last sc) (.leave [3]) ∧ Regroups (last sc) (.leave [3]) ∧
          (last sc).shards 0 = 1 ∧ (last sc').shards 0 = 2)) = some true := by
  decide +kernel

/-- Group 3 leaves, and shard 0 is moved from group 1 to group 2. -/
theorem wasteful_movement_threeJoin : ∃ sc sc',
    controller.Reach (fun sc a => Admissible (last sc) a.2 ∧ ¬ a.2.IsMove) sc ∧
      Admissible (last sc) (.leave [3]) ∧ Regroups (last sc) (.leave [3]) ∧
      sc.apply sortedOrders (.leave [3]) = some sc' ∧
      (last sc).shards 0 = 1 ∧ (last sc').shards 0 = 2 ∧
      ¬ Minimal (last sc) (last sc') (.leave [3]) := by
  obtain ⟨sc, hrun, hsc⟩ := Option.bind_eq_some_iff.mp threeJoin_leave_runs
  obtain ⟨sc', hstep, hsc'⟩ := Option.map_eq_some_iff.mp hsc
  obtain ⟨hadm, hr, hone, htwo⟩ := of_decide_eq_true hsc'
  refine ⟨sc, sc', System.reach_runWhere .init _ hrun, hadm, hr, hstep, hone, htwo, fun hmin => ?_⟩
  have hleft := hmin 0 (by rw [hone, htwo]; decide)
  rw [hone] at hleft
  exact absurd hleft (by decide)

end RaftLabs.ShardCtrler
