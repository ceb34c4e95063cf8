import RaftLabs.ShardCtrler.Validity

/-! Which groups the controller knows.

The groups should be those that joined and have not left since, with the servers they joined
with. Every operation changes them that way but one: a `Join` takes "shard 0 is at gid 0" for
"there is no group yet" and then replaces all groups by the new ones. So the groups are right
exactly when every such `Join` finds no group. -/
namespace RaftLabs.ShardCtrler
open Lib

/-- The groups with their servers, as the clients see them. -/
abbrev Members := Int → Option (List String)

/-- What an operation should do to the groups. -/
def Members.after (members : Members) : Request → Members
  | .join servers => fun gid => (servers.get? gid).or (members gid)
  | .leave gids => fun gid => if gid ∈ gids then none else members gid
  | .move _ _ | .query => members

/-- The groups that have joined and not left since. -/
def membersOf (requests : List Request) : Members := requests.foldl Members.after fun _ => none

/-- The configuration knows exactly these groups. -/
def Knows (cfg : Config) (members : Members) : Prop := ∀ gid, cfg.groups.get? gid = members gid

/-- A `Join` does not take a configuration with groups for one without. -/
def JoinsOnto (cfg : Config) : Request → Prop
  | .join _ => cfg.shards 0 = 0 → cfg.groups.keys = ∅
  | _ => True

instance (cfg : Config) : (r : Request) → Decidable (JoinsOnto cfg r)
  | .join _ => inferInstanceAs (Decidable (_ → _))
  | .leave _ | .move _ _ | .query => isTrue trivial

/-! ### One operation -/

section Step
variable {sc sc' : ShardCtrler} {orders : Orders} {cfg cfg' : Config} {members : Members}

theorem newConfig_eq (h : sc.newConfig orders = some cfg) :
    cfg.shards = (last sc).shards ∧ cfg.groups = (last sc).groups := by
  obtain ⟨cfg₀, hlast, rfl⟩ := Option.map_eq_some_iff.mp h
  rw [last, hlast]
  exact ⟨rfl, groups_deepCopy orders.copy cfg₀⟩

theorem last_push (sc : ShardCtrler) (cfg : Config) : last (sc.push cfg) = cfg := by
  rw [last, ShardCtrler.push, List.getLast?_concat]
  rfl

theorem rebalanceConfig_groups (h : rebalanceConfig orders cfg = some cfg') :
    cfg'.groups = cfg.groups := by
  obtain ⟨shards, rfl⟩ := rebalanceConfig_eq h
  rfl

theorem initConfifg_groups {order : RangeOrder Int} {servers : GoMap Int (List String)}
    (h : initConfifg order cfg servers = some cfg') : cfg'.groups = servers := by
  obtain ⟨shards, rfl⟩ := initConfifg_eq h
  rfl

/-- The servers of new groups are appended to nothing. -/
theorem knows_joinGroups (order : RangeOrder Int) {servers : GoMap Int (List String)}
    (hknows : Knows cfg members) (hnew : ∀ g ∈ servers.keys, g ∉ cfg.groups.keys) :
    Knows (joinGroups order cfg servers) (members.after (.join servers)) := by
  intro gid
  show GoMap.get? (joinGroups order cfg servers).groups gid = (servers.get? gid).or (members gid)
  rw [joinGroups, GoMap.get?_foldl_append _ (order.nodup _)]
  simp only [RangeOrder.mem_list]
  split
  · rename_i hin
    obtain ⟨names, hnames⟩ := Option.isSome_iff_exists.mp (GoMap.mem_keys.mp hin)
    rw [GoMap.getD, GoMap.getD, GoMap.get?_eq_none.mpr (hnew gid hin), hnames]
    rfl
  · rename_i hout
    rw [GoMap.get?_eq_none.mpr hout, Option.none_or]
    exact hknows gid

theorem knows_leaveGroups (order : RangeOrder Int) {gids : List Int} (hknows : Knows cfg members) :
    Knows (leaveGroups order cfg gids) (members.after (.leave gids)) := by
  have hdelete : ∀ (gids : List Int) (groups : GoMap Int (List String)) (gid : Int),
      (gids.foldl (fun groups gid => groups.delete gid) groups).get? gid =
        if gid ∈ gids then none else groups.get? gid := by
    intro gids
    induction gids with
    | nil => simp
    | cons g rest ih =>
      intro groups gid
      rw [List.foldl_cons, ih, GoMap.get?_delete]
      by_cases hg : gid = g <;> simp [hg]
  intro gid
  show GoMap.get? (gids.foldl (fun groups gid => groups.delete gid) cfg.groups) gid =
    if gid ∈ gids then none else members gid
  rw [hdelete, hknows gid]

/-- A first join brings in all groups there are. -/
theorem knows_servers {servers : GoMap Int (List String)} (hgroups : cfg'.groups = servers)
    (hknows : Knows cfg members) (hnone : cfg.groups.keys = ∅) :
    Knows cfg' (members.after (.join servers)) := by
  intro gid
  have hno : members gid = none := by
    rw [← hknows gid, GoMap.get?_eq_none, hnone]
    exact Finset.notMem_empty gid
  show cfg'.groups.get? gid = (servers.get? gid).or (members gid)
  rw [hgroups, hno, Option.or_none]

/-- A join that replaces the groups loses every group there was. -/
theorem not_knows_servers {servers : GoMap Int (List String)} (hgroups : cfg'.groups = servers)
    (hknows : Knows cfg members) (hnew : ∀ g ∈ servers.keys, g ∉ cfg.groups.keys)
    (hsome : cfg.groups.keys ≠ ∅) : ¬ Knows cfg' (members.after (.join servers)) := by
  intro hknows'
  obtain ⟨gid, hgid⟩ := Finset.nonempty_iff_ne_empty.mpr hsome
  have hlost : servers.get? gid = none := GoMap.get?_eq_none.mpr fun hin => hnew gid hin hgid
  have heq : cfg'.groups.get? gid = (servers.get? gid).or (members gid) := hknows' gid
  rw [hgroups, hlost, Option.none_or, ← hknows gid] at heq
  exact absurd (GoMap.mem_keys.mp hgid) (by rw [← heq]; exact Bool.false_ne_true)

/-- **One operation changes the groups as it should, exactly when it is no `Join` that replaces
them.** -/
theorem knows_apply {r : Request} (hknows : Knows (last sc) members) (hadm : Admissible (last sc) r)
    (hstep : sc.apply orders r = some sc') :
    Knows (last sc') (members.after r) ↔ JoinsOnto (last sc) r := by
  cases r with
  | query =>
    cases hstep
    exact ⟨fun _ => trivial, fun _ => hknows⟩
  | move shard gid =>
    refine ⟨fun _ => trivial, fun _ => ?_⟩
    obtain ⟨cfg, hcopy, hmove⟩ := Option.bind_eq_some_iff.mp hstep
    split at hmove
    · cases hmove
      rw [last_push]
      exact fun g => (congrArg (GoMap.get? · g) (newConfig_eq hcopy).2).trans (hknows g)
    · cases hmove
  | leave gids =>
    refine ⟨fun _ => trivial, fun _ => ?_⟩
    obtain ⟨cfg, hcopy, hleave⟩ := Option.bind_eq_some_iff.mp hstep
    obtain ⟨cfg', hreb, rfl⟩ := Option.map_eq_some_iff.mp hleave
    have hcfg : Knows cfg members := fun g =>
      (congrArg (GoMap.get? · g) (newConfig_eq hcopy).2).trans (hknows g)
    rw [last_push]
    intro gid
    rw [rebalanceConfig_groups hreb]
    exact knows_leaveGroups orders.counts hcfg gid
  | join servers =>
    obtain ⟨cfg, hcopy, hjoin⟩ := Option.bind_eq_some_iff.mp hstep
    obtain ⟨cfg', hnext, rfl⟩ := Option.map_eq_some_iff.mp hjoin
    obtain ⟨hshards, hgroups⟩ := newConfig_eq hcopy
    have hcfg : Knows cfg members := fun g =>
      (congrArg (GoMap.get? · g) hgroups).trans (hknows g)
    have hnew : ∀ g ∈ servers.keys, g ∉ cfg.groups.keys := fun g hg => hgroups ▸ (hadm.2 g hg).2
    rw [last_push, JoinsOnto, ← hshards, ← hgroups]
    split at hnext
    · rename_i hzero
      have hservers := initConfifg_groups hnext
      constructor
      · intro hknows' _
        by_contra hsome
        exact not_knows_servers hservers hcfg hnew hsome hknows'
      · exact fun honto => knows_servers hservers hcfg (honto hzero)
    · rename_i hnz
      refine ⟨fun _ hzero => absurd hzero hnz, fun _ gid => ?_⟩
      rw [rebalanceConfig_groups hnext]
      exact knows_joinGroups orders.servers hcfg hnew gid

end Step

/-! ### Runs -/

/-- After every part of the run the controller knows the right groups. -/
def KnowsAlong (sc : ShardCtrler) (members : Members) (as : List (Orders × Request)) : Prop :=
  ∀ n sc', controller.run sc (as.take n) = some sc' →
    Knows (last sc') (((as.take n).map (·.2)).foldl Members.after members)

theorem knowsAlong_cons {sc sc₁ : ShardCtrler} {members : Members} {a : Orders × Request}
    {rest : List (Orders × Request)} (hknows : Knows (last sc) members)
    (hstep : controller.step sc a = some sc₁) :
    KnowsAlong sc members (a :: rest) ↔
      Knows (last sc₁) (members.after a.2) ∧ KnowsAlong sc₁ (members.after a.2) rest := by
  have hrun : ∀ n, controller.run sc ((a :: rest).take (n + 1)) =
      controller.run sc₁ (rest.take n) := by
    intro n
    rw [List.take_succ_cons, System.run, hstep]
    rfl
  constructor
  · intro h
    refine ⟨h 1 sc₁ (hrun 0), fun n sc' hsc' => ?_⟩
    exact h (n + 1) sc' ((hrun n).trans hsc')
  · rintro ⟨-, h⟩ n sc' hsc'
    cases n with
    | zero =>
      cases hsc'
      exact hknows
    | succ n => exact h n sc' ((hrun n).symm.trans hsc')

theorem knowsAlong_iff {as : List (Orders × Request)} {sc sc' : ShardCtrler} {members : Members}
    (hknows : Knows (last sc) members) (hrun : controller.run sc as = some sc')
    (hadm : controller.Along (fun sc a => Admissible (last sc) a.2) sc as) :
    KnowsAlong sc members as ↔
      controller.Along (fun sc a => JoinsOnto (last sc) a.2) sc as := by
  induction as generalizing sc members with
  | nil =>
    refine ⟨fun _ => trivial, fun _ n sc' hsc' => ?_⟩
    rw [List.take_nil] at hsc' ⊢
    cases hsc'
    exact hknows
  | cons a rest ih =>
    obtain ⟨sc₁, hstep, hrest⟩ := Option.bind_eq_some_iff.mp hrun
    obtain ⟨hadm₀, hadm⟩ := hadm
    simp only [System.Along, hstep] at hadm ⊢
    rw [knowsAlong_cons hknows hstep, ← knows_apply hknows hadm₀ hstep]
    exact and_congr_right fun hknows₁ => ih hknows₁ hrest hadm

/-- **Membership.** In a run of admissible requests the latest configuration always has exactly
the groups that have joined and not left since, with the servers they joined with, if and only if
every `Join` that finds shard 0 at gid 0 finds no group. -/
theorem membership_iff (as : List (Orders × Request)) (sc : ShardCtrler)
    (hrun : controller.run controller.init as = some sc)
    (hadm : controller.Along (fun sc a => Admissible (last sc) a.2) controller.init as) :
    (∀ n sc', controller.run controller.init (as.take n) = some sc' →
      ∀ gid, (last sc').groups.get? gid = membersOf ((as.take n).map (·.2)) gid) ↔
      controller.Along (fun sc a => JoinsOnto (last sc) a.2) controller.init as :=
  knowsAlong_iff (fun _ => GoMap.get?_empty) hrun hadm

/-! ### Two runs -/

/-- Groups join, a shard is moved, groups leave until none is left, and another one joins. -/
def joinAgain : List (Orders × Request) :=
  [(sortedOrders, .join (.ofList [(1, ["a"]), (2, ["b", "c"])])), (sortedOrders, .move 0 2),
   (sortedOrders, .leave [1]), (sortedOrders, .leave [2]),
   (sortedOrders, .join (.ofList [(3, ["d"])]))]

theorem joinAgain_runs : (controller.run controller.init joinAgain).isSome = true := by
  decide +kernel

theorem membership_joinAgain : ∃ sc, controller.run controller.init joinAgain = some sc ∧
    ∀ gid, (last sc).groups.get? gid = membersOf (joinAgain.map (·.2)) gid := by
  obtain ⟨sc, hsc⟩ := Option.isSome_iff_exists.mp joinAgain_runs
  exact ⟨sc, hsc,
    (membership_iff joinAgain sc hsc (by decide +kernel)).mpr (by decide +kernel) 5 sc hsc⟩

/-- The owners leave, group 11 stays, and group 12 joins. -/
def joinAfterOwners : List (Orders × Request) :=
  ownersLeave ++ [(sortedOrders, .join (.ofList [(12, [])]))]

/-- The run is one of admissible requests; group 11 has joined and not left, but the controller
knows group 12 only. -/
theorem membership_lost :
    controller.Along (fun sc a => Admissible (last sc) a.2) controller.init joinAfterOwners ∧
    ∃ sc, controller.run controller.init joinAfterOwners = some sc ∧
      (last sc).groups.keys = {12} ∧ membersOf (joinAfterOwners.map (·.2)) 11 = some [] := by
  refine ⟨by decide +kernel, ?_⟩
  have hrun : ((controller.run controller.init joinAfterOwners).map fun sc =>
      decide ((last sc).groups.keys = {12} ∧
        membersOf (joinAfterOwners.map (·.2)) 11 = some [])) = some true := by
    decide +kernel
  obtain ⟨sc, hsc, hbad⟩ := Option.map_eq_some_iff.mp hrun
  exact ⟨sc, hsc, of_decide_eq_true hbad⟩

end RaftLabs.ShardCtrler
