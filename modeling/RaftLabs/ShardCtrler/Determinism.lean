import RaftLabs.ShardCtrler.Server
import RaftLabs.ShardCtrler.Validity

/-! The controller's replicas agree, in whatever order their loops go through maps.

Copying and joining touch every key once; `initConfifg` and `rebalanceConfig` sort what they
collected by a total order; the temporary owner of a `Leave` is the best gid of an order that
has one best gid; and the new owners are written to disjoint shards. So no operation depends on
the orders, and a replica's configurations are a function of its log. -/
namespace RaftLabs.ShardCtrler
open Lib

/-! ### Operations do not depend on the orders -/

theorem deepCopy_orders (order order' : RangeOrder Int) (cfg : Config) :
    deepCopy order cfg = deepCopy order' cfg := by
  have hgroups := (groups_deepCopy order cfg).trans (groups_deepCopy order' cfg).symm
  simp only [deepCopy, Config.mk.injEq, true_and]
  exact hgroups

theorem newConfig_orders (sc : ShardCtrler) (orders orders' : Orders) :
    sc.newConfig orders = sc.newConfig orders' := by
  simp only [newConfig, deepCopy_orders orders.copy orders'.copy]

theorem initConfifg_orders (order order' : RangeOrder Int) (cfg : Config)
    (servers : GoMap Int (List String)) :
    initConfifg order cfg servers = initConfifg order' cfg servers := by
  have hsort : (order.list servers.keys).insertionSort (· ≤ ·) =
      (order'.list servers.keys).insertionSort (· ≤ ·) :=
    ((List.perm_insertionSort _ _).trans ((order.perm_list order' _).trans
      (List.perm_insertionSort _ _).symm)).eq_of_pairwise'
        (List.pairwise_insertionSort _ _) (List.pairwise_insertionSort _ _)
  exact congrArg (fun gids : List Int => if h : 0 < gids.length then
    some { cfg with
      groups := servers
      shards := fun i => gids.get ⟨i % gids.length, Nat.mod_lt i h⟩ }
    else none) hsort

theorem joinGroups_orders (order order' : RangeOrder Int) (cfg : Config)
    (servers : GoMap Int (List String)) :
    joinGroups order cfg servers = joinGroups order' cfg servers := by
  simp only [joinGroups, Config.mk.injEq, true_and]
  refine GoMap.ext_get? fun k => ?_
  rw [GoMap.get?_foldl_append _ (order.nodup _), GoMap.get?_foldl_append _ (order'.nodup _)]
  simp only [RangeOrder.mem_list]

/-! ### The temporary owner -/

section TGid
variable (m : GoMap Int Nat)

/-- `t` has more shards than `g`, or as many and not a greater gid. -/
def Better (t g : Int) : Prop :=
  m.getD g 0 < m.getD t 0 ∨ (m.getD g 0 = m.getD t 0 ∧ t ≤ g)

variable {m}

theorem Better.trans {a b c : Int} (h : Better m a b) (h' : Better m b c) : Better m a c := by
  unfold Better at *
  omega

theorem Better.antisymm {a b : Int} (h : Better m a b) (h' : Better m b a) : a = b := by
  unfold Better at *
  omega

/-- One round chooses the better one. -/
theorem better_round (t g : Int) :
    Better m (if m.getD t 0 < m.getD g 0 then g
      else if m.getD g 0 = m.getD t 0 then min t g else t) t ∧
    Better m (if m.getD t 0 < m.getD g 0 then g
      else if m.getD g 0 = m.getD t 0 then min t g else t) g := by
  split
  · exact ⟨.inl ‹_›, .inr ⟨rfl, Int.le_refl g⟩⟩
  · split
    · rename_i heq
      rcases Int.le_total t g with hle | hle
      · rw [min_eq_left hle]
        exact ⟨.inr ⟨rfl, Int.le_refl t⟩, .inr ⟨heq, hle⟩⟩
      · rw [min_eq_right hle]
        exact ⟨.inr ⟨heq.symm, hle⟩, .inr ⟨rfl, Int.le_refl g⟩⟩
    · exact ⟨.inr ⟨rfl, Int.le_refl t⟩, .inl (by omega)⟩

theorem tGid_better (order : RangeOrder Int) {g : Int} (hg : g ∈ m.keys) :
    Better m (tGid order m) g := by
  have hfold : ∀ (gs : List Int) (t : Int),
      Better m (gs.foldl (fun tGid gid =>
        if m.getD tGid 0 < m.getD gid 0 then gid
        else if m.getD gid 0 = m.getD tGid 0 then min tGid gid else tGid) t) t ∧
      ∀ g ∈ gs, Better m (gs.foldl (fun tGid gid =>
        if m.getD tGid 0 < m.getD gid 0 then gid
        else if m.getD gid 0 = m.getD tGid 0 then min tGid gid else tGid) t) g := by
    intro gs
    induction gs with
    | nil => exact fun t => ⟨.inr ⟨rfl, Int.le_refl t⟩, fun _ h => nomatch h⟩
    | cons g rest ih =>
      intro t
      obtain ⟨hacc, hrest⟩ := ih (if m.getD t 0 < m.getD g 0 then g
        else if m.getD g 0 = m.getD t 0 then min t g else t)
      obtain ⟨ht, hg⟩ := better_round (m := m) t g
      refine ⟨hacc.trans ht, fun g' hg' => ?_⟩
      rcases List.mem_cons.mp hg' with rfl | hmem
      · exact hacc.trans hg
      · exact hrest g' hmem
  exact (hfold _ 0).2 g (order.mem_list.mpr hg)

theorem tGid_orders (order order' : RangeOrder Int) (hpos : ∀ g ∈ m.keys, 0 < m.getD g 0) :
    tGid order m = tGid order' m := by
  by_cases hne : m.keys.Nonempty
  · exact (tGid_better order (tGid_mem order' hne hpos)).antisymm
      (tGid_better order' (tGid_mem order hne hpos))
  · have hempty := Finset.not_nonempty_iff_eq_empty.mp hne
    rw [tGid_empty order hempty, tGid_empty order' hempty]

end TGid

theorem leaveGroups_orders (order order' : RangeOrder Int) (cfg : Config) (gids : List Int) :
    leaveGroups order cfg gids = leaveGroups order' cfg gids := by
  have ht : tGid order (gid2ShardNum gids cfg.shards) = tGid order' (gid2ShardNum gids cfg.shards) :=
    tGid_orders order order' fun g hg => gid2ShardNum_pos hg
  simp only [leaveGroups, ht]

/-! ### Rebalancing -/

instance : Std.Total GidPair.le where
  total a b := by
    unfold GidPair.le
    omega

instance : IsTrans GidPair GidPair.le where
  trans a b c h h' := by
    unfold GidPair.le at *
    omega

instance : Std.Antisymm GidPair.le where
  antisymm a b h h' := by
    obtain ⟨ga, ca⟩ := a
    obtain ⟨gb, cb⟩ := b
    simp only [GidPair.le] at h h'
    obtain rfl : ga = gb := by omega
    obtain rfl : ca = cb := by omega
    rfl

theorem sortedGids_orders (orders orders' : Orders) (cfg : Config) (m : GoMap Int (List Shard)) :
    sortedGids orders cfg m = sortedGids orders' cfg m := by
  refine List.Perm.eq_of_pairwise' (List.pairwise_insertionSort _ _)
    (List.pairwise_insertionSort _ _) ?_
  refine (List.perm_insertionSort _ _).trans (List.Perm.trans ?_ (List.perm_insertionSort _ _).symm)
  exact ((orders.owners.perm_list orders'.owners _).map _).append
    (((orders.groups.perm_list orders'.groups _).filter _).map _)

/-- The loop leaves a partition of the shards. -/
theorem exists_rebalanceLoop (orders : Orders) (cfg : Config) (avg : Nat) :
    ∃ m, rebalanceLoop (sortedGids orders cfg (gid2shards cfg.shards)) avg 0
      ((sortedGids orders cfg (gid2shards cfg.shards)).length - 1) (gid2shards cfg.shards) = some m ∧
      Partition m := by
  have hlen : 0 < (sortedGids orders cfg (gid2shards cfg.shards)).length :=
    sortedGids_length_pos (mem_keys_gid2shards.mpr ⟨⟨0, by decide⟩, rfl⟩)
  exact rebalanceLoop_rule (sortedGids_nodup orders cfg _)
    (fun m lo hi hP _ _ hne _ _ => hP.moveShards hne) (Nat.sub_lt hlen Nat.one_pos)
    (partition_gid2shards cfg.shards)

theorem assignShards_orders (order order' : RangeOrder Int) {m : GoMap Int (List Shard)}
    (hm : Partition m) (shards : Shard → Int) :
    assignShards order m shards = assignShards order' m shards := by
  funext s
  obtain ⟨g, hg⟩ := hm.cover s
  rw [assignShards_eq hm _ hg, assignShards_eq hm _ hg]

theorem rebalanceConfig_orders (orders orders' : Orders) (cfg : Config) :
    rebalanceConfig orders cfg = rebalanceConfig orders' cfg := by
  unfold rebalanceConfig
  split
  · rfl
  · obtain ⟨m, hloop, hm⟩ :=
      exists_rebalanceLoop orders cfg (max 1 (nShards / cfg.groups.len))
    dsimp only
    rw [sortedGids_orders orders' orders, hloop, Option.map_some, Option.map_some,
      assignShards_orders orders.assign orders'.assign hm]

/-- **No operation depends on the order of its loops.** -/
theorem apply_orders (sc : ShardCtrler) (orders orders' : Orders) (r : Request) :
    sc.apply orders r = sc.apply orders' r := by
  cases r with
  | join servers =>
    simp only [apply, doJoin, newConfig_orders sc orders orders',
      initConfifg_orders orders.servers orders'.servers,
      joinGroups_orders orders.servers orders'.servers, rebalanceConfig_orders orders orders']
  | leave gids =>
    simp only [apply, doLeave, newConfig_orders sc orders orders',
      leaveGroups_orders orders.counts orders'.counts, rebalanceConfig_orders orders orders']
  | move shard gid => simp only [apply, doMove, newConfig_orders sc orders orders']
  | query => rfl

/-! ### Numbers -/

theorem num_of_newConfig {sc : ShardCtrler} {orders : Orders} {cfg : Config}
    (h : sc.newConfig orders = some cfg) : cfg.num = sc.configs.length := by
  obtain ⟨cfg', -, rfl⟩ := Option.map_eq_some_iff.mp h
  rfl

theorem num_of_rebalanceConfig {orders : Orders} {cfg cfg' : Config}
    (h : rebalanceConfig orders cfg = some cfg') : cfg'.num = cfg.num := by
  obtain ⟨shards, rfl⟩ := rebalanceConfig_eq h
  rfl

theorem num_of_initConfifg {order : RangeOrder Int} {cfg cfg' : Config}
    {servers : GoMap Int (List String)} (h : initConfifg order cfg servers = some cfg') :
    cfg'.num = cfg.num := by
  obtain ⟨shards, rfl⟩ := initConfifg_eq h
  rfl

/-- An operation changes nothing, or adds a configuration that has its index as number. -/
theorem apply_cases {sc sc' : ShardCtrler} {orders : Orders} {r : Request}
    (h : sc.apply orders r = some sc') :
    sc' = sc ∨ ∃ cfg, sc' = sc.push cfg ∧ cfg.num = sc.configs.length := by
  cases r with
  | join servers =>
    obtain ⟨cfg, hnew, hmap⟩ := Option.bind_eq_some_iff.mp h
    obtain ⟨cfg', hcfg', rfl⟩ := Option.map_eq_some_iff.mp hmap
    refine .inr ⟨cfg', rfl, ?_⟩
    have hnum := num_of_newConfig hnew
    split at hcfg'
    · exact (num_of_initConfifg hcfg').trans hnum
    · exact (num_of_rebalanceConfig hcfg').trans hnum
  | leave gids =>
    obtain ⟨cfg, hnew, hmap⟩ := Option.bind_eq_some_iff.mp h
    obtain ⟨cfg', hcfg', rfl⟩ := Option.map_eq_some_iff.mp hmap
    refine .inr ⟨cfg', rfl, ?_⟩
    have hnum := num_of_newConfig hnew
    exact (num_of_rebalanceConfig hcfg').trans hnum
  | move shard gid =>
    obtain ⟨cfg, hnew, hif⟩ := Option.bind_eq_some_iff.mp h
    have hnum := num_of_newConfig hnew
    split at hif
    · cases hif
      exact .inr ⟨_, rfl, hnum⟩
    · cases hif
  | query =>
    cases h
    exact .inl rfl

/-- The configurations are numbered by their index, from the empty one on. -/
structure Numbered (sc : ShardCtrler) : Prop where
  zero : sc.configs[0]? = some ({} : Config)
  num : ∀ k (cfg : Config), sc.configs[k]? = some cfg → cfg.num = k

theorem numbered_init : Numbered controller.init where
  zero := rfl
  num k cfg h := by
    cases k with
    | zero =>
      cases h
      rfl
    | succ k => cases h

theorem Numbered.apply {sc sc' : ShardCtrler} (h : Numbered sc) {orders : Orders} {r : Request}
    (hstep : sc.apply orders r = some sc') : Numbered sc' := by
  rcases apply_cases hstep with rfl | ⟨cfg, rfl, hnum⟩
  · exact h
  · have hpos : 0 < sc.configs.length := (List.getElem?_eq_some_iff.mp h.zero).1
    refine ⟨?_, fun k cfg' hk => ?_⟩
    · exact (List.getElem?_append_left hpos).trans h.zero
    · rcases Nat.lt_trichotomy k sc.configs.length with hlt | rfl | hgt
      · rw [push, List.getElem?_append_left hlt] at hk
        exact h.num k cfg' hk
      · rw [push, List.getElem?_concat_length] at hk
        cases hk
        exact hnum
      · rw [push, List.getElem?_eq_none (by simpa using Nat.succ_le_of_lt hgt)] at hk
        cases hk

theorem Numbered.run {sc sc' : ShardCtrler} (h : Numbered sc) {as : List (Orders × Request)}
    (hrun : controller.run sc as = some sc') : Numbered sc' := by
  induction as generalizing sc with
  | nil =>
    cases hrun
    exact h
  | cons a rest ih =>
    obtain ⟨sc₁, hstep, hrest⟩ := Option.bind_eq_some_iff.mp hrun
    exact ih (h.apply hstep) hrest

/-! ### Replicas -/

/-- A replica that applies a log, with its own orders for every entry. -/
def replay (orders : Nat → Orders) (log : List Op) : Option Server :=
  log.zipIdx.foldlM (fun srv op => srv.applyCommand (orders op.2) op.1 (op.2 + 1)) {}

/-- The request number is positive and above all earlier ones of the client. -/
def Fresh (log : List Op) (op : Op) : Prop :=
  0 < op.reqNo ∧ ∀ op' ∈ log, op'.clientId = op.clientId → op'.reqNo < op.reqNo

instance (log : List Op) (op : Op) : Decidable (Fresh log op) :=
  inferInstanceAs (Decidable (_ ∧ ∀ op' ∈ log, _))

/-- The entries that are not duplicates. -/
def fresh (log : List Op) : List Op :=
  log.zipIdx.filterMap fun op => if Fresh (log.take op.2) op.1 then some op.1 else none

theorem fresh_concat (log : List Op) (op : Op) :
    fresh (log ++ [op]) = fresh log ++ (if Fresh log op then [op] else []) := by
  have htake : ∀ x ∈ log.zipIdx, (log ++ [op]).take x.2 = log.take x.2 := by
    intro x hx
    have hlt := List.snd_lt_of_mem_zipIdx hx
    exact List.take_append_of_le_length (by omega)
  rw [fresh, List.zipIdx_append, List.filterMap_append]
  congr 1
  · refine List.filterMap_congr fun x hx => ?_
    rw [htake x hx]
  · by_cases hf : Fresh log op <;> simp [hf]

theorem replay_concat (orders : Nat → Orders) (log : List Op) (op : Op) :
    replay orders (log ++ [op]) = (replay orders log).bind fun srv =>
      srv.applyCommand (orders log.length) op (log.length + 1) := by
  rw [replay, List.zipIdx_append, List.foldlM_append]
  simp only [Nat.zero_add, List.zipIdx_singleton, List.foldlM_cons, List.foldlM_nil, bind_pure]
  rfl

/-- What a replica has after a log: the highest request number of each client, and the
configurations of the entries that are not duplicates. -/
structure Replays (log : List Op) (srv : Server) : Prop where
  positive : ∀ c, 0 ≤ srv.completed c
  above : ∀ op ∈ log, op.reqNo ≤ srv.completed op.clientId
  reached : ∀ c, 0 < srv.completed c → ∃ op ∈ log, op.clientId = c ∧ op.reqNo = srv.completed c
  configs : ∀ orders, controller.run controller.init
    ((fresh log).map fun op => (orders, op.args.request)) = some srv.sc

theorem Replays.fresh_iff {log : List Op} {srv : Server} (h : Replays log srv) (op : Op) :
    Fresh log op ↔ srv.completed op.clientId < op.reqNo := by
  constructor
  · rintro ⟨hpos, habove⟩
    by_cases h0 : 0 < srv.completed op.clientId
    · obtain ⟨op', hop', hc, hr⟩ := h.reached op.clientId h0
      rw [← hr]
      exact habove op' hop' hc
    · exact Int.lt_of_le_of_lt (Int.not_lt.mp h0) hpos
  · intro hlt
    refine ⟨Int.lt_of_le_of_lt (h.positive _) hlt, fun op' hop' hc => ?_⟩
    exact Int.lt_of_le_of_lt (hc ▸ h.above op' hop') hlt

theorem controller_run_append (sc : ShardCtrler) (as bs : List (Orders × Request)) :
    controller.run sc (as ++ bs) = (controller.run sc as).bind (controller.run · bs) := by
  induction as generalizing sc with
  | nil => rfl
  | cons a rest ih =>
    simp only [List.cons_append, System.run, ih]
    exact (Option.bind_assoc _ _ _).symm

theorem Replays.applyCommand {log : List Op} {srv srv' : Server} (h : Replays log srv)
    {orders : Orders} {op : Op} {i : Nat} (hstep : srv.applyCommand orders op i = some srv') :
    Replays (log ++ [op]) srv' := by
  unfold Server.applyCommand at hstep
  by_cases hfresh : srv.completed op.clientId < op.reqNo
  · rw [if_pos hfresh] at hstep
    obtain ⟨sc, hsc, rfl⟩ := Option.map_eq_some_iff.mp hstep
    have hcompleted : ∀ c, Server.completed
        { sc := sc
          completedPool := Function.update srv.completedPool op.clientId (some op.reqNo)
          commitedId := max srv.commitedId i } c =
        if c = op.clientId then op.reqNo else srv.completed c := by
      intro c
      unfold Server.completed
      by_cases hc : c = op.clientId
      · subst hc
        rw [if_pos rfl]
        simp only [Function.update_self, Option.getD_some]
      · rw [if_neg hc]
        simp only [Function.update_of_ne hc]
    have hpos := h.positive op.clientId
    refine ⟨fun c => ?_, fun op' hop' => ?_, fun c hc => ?_, fun orders' => ?_⟩
    · rw [hcompleted]
      split
      · omega
      · exact h.positive c
    · rw [hcompleted]
      rcases List.mem_append.mp hop' with hold | hnew
      · have := h.above op' hold
        split
        · rename_i heq
          rw [heq] at this
          omega
        · exact this
      · rw [List.mem_singleton.mp hnew, if_pos rfl]
    · rw [hcompleted] at hc ⊢
      split
      · rename_i heq
        exact ⟨op, List.mem_append_right _ (List.mem_singleton_self _), heq.symm, rfl⟩
      · rename_i hne
        rw [if_neg hne] at hc
        obtain ⟨op', hop', hc', hr⟩ := h.reached c hc
        exact ⟨op', List.mem_append_left _ hop', hc', hr⟩
    · rw [fresh_concat, if_pos ((h.fresh_iff op).mpr hfresh), List.map_append,
        controller_run_append, h.configs orders', Option.bind_some, apply_orders _ _ orders'] at *
      simp only [List.map_cons, List.map_nil, System.run, controller, hsc, Option.bind_some]
  · rw [if_neg hfresh] at hstep
    cases hstep
    refine ⟨h.positive, fun op' hop' => ?_, fun c hc => ?_, fun orders' => ?_⟩
    · rcases List.mem_append.mp hop' with hold | hnew
      · exact h.above op' hold
      · rw [List.mem_singleton.mp hnew]
        exact Int.not_lt.mp hfresh
    · obtain ⟨op', hop', hc', hr⟩ := h.reached c hc
      exact ⟨op', List.mem_append_left _ hop', hc', hr⟩
    · rw [fresh_concat, if_neg fun hf => hfresh ((h.fresh_iff op).mp hf), List.append_nil]
      exact h.configs orders'

theorem replays_replay {orders : Nat → Orders} {log : List Op} {srv : Server}
    (h : replay orders log = some srv) : Replays log srv := by
  induction log using List.reverseRecOn generalizing srv with
  | nil =>
    cases h
    exact ⟨fun _ => Int.le_refl 0, fun _ h => (nomatch h), fun _ h => absurd h (Int.lt_irrefl 0),
      fun _ => rfl⟩
  | append_singleton log op ih =>
    rw [replay_concat] at h
    obtain ⟨srv₀, hsrv₀, hstep⟩ := Option.bind_eq_some_iff.mp h
    exact (ih hsrv₀).applyCommand hstep

/-- **Replicas agree.** Two replicas that have applied the same log, each with its own orders for
every loop of every entry, have the same configurations: those of the entries that are not
duplicates, whatever the orders, and numbered by their index. -/
theorem replicas_agree {orders orders' : Nat → Orders} {log : List Op} {srv srv' : Server}
    (h : replay orders log = some srv) (h' : replay orders' log = some srv') :
    srv.sc.configs = srv'.sc.configs ∧
      (∀ o, controller.run controller.init
        ((fresh log).map fun op => (o, op.args.request)) = some srv.sc) ∧
      ∀ k (cfg : Config), srv.sc.configs[k]? = some cfg → cfg.num = k := by
  have hrun := (replays_replay h).configs
  have hrun' := (replays_replay h').configs
  refine ⟨?_, hrun, (numbered_init.run (hrun (orders 0))).num⟩
  rw [Option.some.inj ((hrun (orders 0)).symm.trans (hrun' (orders 0)))]

/-- Three groups join, twice in the log; one leaves; a late `Move` is dropped, another is not. -/
def duplicatedLog : List Op :=
  [⟨1, 1, .join (.ofList [(1, ["a"]), (2, ["b"]), (3, ["c"])])⟩,
   ⟨1, 1, .join (.ofList [(1, ["a"]), (2, ["b"]), (3, ["c"])])⟩,
   ⟨2, 5, .leave [2]⟩, ⟨1, 3, .query (-1)⟩, ⟨2, 4, .move 0 3⟩, ⟨1, 7, .move 9 3⟩]

/-- The orders in which every loop goes through its keys downwards. -/
def reversedOrders : Orders :=
  ⟨.reverse .sorted, .reverse .sorted, .reverse .sorted, .reverse .sorted, .reverse .sorted,
    .reverse .sorted⟩

theorem duplicatedLog_runs :
    (replay (fun _ => sortedOrders) duplicatedLog).map (·.sc.configs.length) = some 4 ∧
      (replay (fun _ => reversedOrders) duplicatedLog).isSome = true := by
  decide +kernel

theorem replicas_agree_duplicatedLog : ∃ srv srv',
    replay (fun _ => sortedOrders) duplicatedLog = some srv ∧
    replay (fun _ => reversedOrders) duplicatedLog = some srv' ∧
    srv.sc.configs.length = 4 ∧ srv.sc.configs = srv'.sc.configs := by
  obtain ⟨srv, hsrv, hlen⟩ := Option.map_eq_some_iff.mp duplicatedLog_runs.1
  obtain ⟨srv', hsrv'⟩ := Option.isSome_iff_exists.mp duplicatedLog_runs.2
  exact ⟨srv, srv', hsrv, hsrv', hlen, (replicas_agree hsrv hsrv').1⟩

end RaftLabs.ShardCtrler
