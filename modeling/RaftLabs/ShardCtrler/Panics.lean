import RaftLabs.ShardCtrler.Determinism
import RaftLabs.ShardCtrler.Membership

/-! Which requests stop a server.

Every replica applies the same entries, so an entry that panics in one stops all of them. The
code divides by a number of groups in two places and indexes by a number from a request in two.
`rebalanceConfig` looks whether there are groups before it divides; `initConfifg` does not, and
deals the shards out to the groups of the request. `doMove` does not look at the shard and `Query`
looks at the number from above only. Nothing else can go wrong, whatever the configurations. -/
namespace RaftLabs.ShardCtrler
open Lib

/-- What `applyLog` needs of a request: a join that finds shard 0 not given out brings a group, a
move names a shard. -/
def Applicable (cfg : Config) : Request → Prop
  | .join servers => cfg.shards 0 = 0 → servers.keys.Nonempty
  | .move shard _ => 0 ≤ shard ∧ shard < nShards
  | .leave _ | .query => True

/-- What `Query` needs of its number. -/
def Answerable : Args → Prop
  | .query num => -1 ≤ num
  | .join _ | .leave _ | .move _ _ => True

instance (cfg : Config) : (r : Request) → Decidable (Applicable cfg r)
  | .join _ => inferInstanceAs (Decidable (_ → _))
  | .move _ _ => inferInstanceAs (Decidable (_ ∧ _))
  | .leave _ | .query => isTrue trivial

instance : (args : Args) → Decidable (Answerable args)
  | .query num => inferInstanceAs (Decidable (-1 ≤ num))
  | .join _ | .leave _ | .move _ _ => isTrue trivial

/-! ### One operation -/

theorem isSome_rebalanceConfig (orders : Orders) (cfg : Config) :
    (rebalanceConfig orders cfg).isSome := by
  by_cases hlen : cfg.groups.len = 0
  · rw [rebalanceConfig, if_pos hlen]
    rfl
  · obtain ⟨shards, hreb, -⟩ := rebalanceConfig_spec orders cfg hlen
    rw [hreb]
    rfl

theorem isSome_initConfifg {order : RangeOrder Int} {cfg : Config}
    {servers : GoMap Int (List String)} :
    (initConfifg order cfg servers).isSome ↔ servers.keys.Nonempty := by
  have hlen : 0 < ((order.list servers.keys).insertionSort (· ≤ ·)).length ↔
      servers.keys.Nonempty := by
    simp only [List.length_pos_iff_exists_mem, List.mem_insertionSort, RangeOrder.mem_list]
    rfl
  rw [← hlen, initConfifg]
  split
  · exact ⟨fun _ => ‹_›, fun _ => rfl⟩
  · exact ⟨fun h => absurd h Bool.false_ne_true, fun h => absurd h ‹_›⟩

section Step
variable {sc : ShardCtrler} (hsc : sc.configs ≠ [])
include hsc

theorem exists_newConfig_of_ne_nil (orders : Orders) : ∃ cfg, sc.newConfig orders = some cfg := by
  rw [newConfig, List.getLast?_eq_some_getLast hsc]
  exact ⟨_, rfl⟩

/-- An operation is applied exactly when it is applicable. -/
theorem isSome_apply (orders : Orders) (r : Request) :
    (sc.apply orders r).isSome ↔ Applicable (last sc) r := by
  obtain ⟨cfg, hcopy⟩ := exists_newConfig_of_ne_nil hsc orders
  have hshards := (newConfig_eq hcopy).1
  cases r with
  | join servers =>
    rw [apply, doJoin, hcopy, Option.bind_some, Option.isSome_map, Applicable, ← hshards]
    split
    · rename_i hzero
      rw [isSome_initConfifg]
      exact ⟨fun hne _ => hne, fun h => h hzero⟩
    · rename_i hzero
      exact ⟨fun _ h => absurd h hzero, fun _ => isSome_rebalanceConfig _ _⟩
  | leave gids =>
    rw [apply, doLeave, hcopy, Option.bind_some, Option.isSome_map]
    exact ⟨fun _ => trivial, fun _ => isSome_rebalanceConfig _ _⟩
  | move shard gid =>
    rw [apply, doMove, hcopy, Option.bind_some]
    have hrange : (0 ≤ shard ∧ shard.toNat < nShards) ↔ Applicable (last sc) (.move shard gid) := by
      show _ ↔ 0 ≤ shard ∧ shard < nShards
      omega
    rw [← hrange]
    split
    · exact ⟨fun _ => ‹_›, fun _ => rfl⟩
    · exact ⟨fun h => absurd h Bool.false_ne_true, fun h => absurd h ‹_›⟩
  | query => exact ⟨fun _ => trivial, fun _ => rfl⟩

/-- A configuration is read exactly when the number is -1 or above. -/
theorem isSome_queryConfig (num : Int) : (Server.queryConfig sc num).isSome ↔ -1 ≤ num := by
  have hlen : 0 < sc.configs.length := List.length_pos_of_ne_nil hsc
  rw [Server.queryConfig]
  split
  · rename_i hlast
    rw [List.getLast?_eq_some_getLast hsc]
    exact ⟨fun _ => by omega, fun _ => rfl⟩
  · rename_i hlast
    split
    · rw [List.getElem?_eq_getElem (by omega)]
      exact ⟨fun _ => by omega, fun _ => rfl⟩
    · exact ⟨fun h => absurd h Bool.false_ne_true, fun _ => by omega⟩

end Step

/-! ### Replicas -/

theorem Numbered.configs_ne_nil {sc : ShardCtrler} (h : Numbered sc) : sc.configs ≠ [] := by
  have hzero := h.zero
  intro hnil
  rw [hnil] at hzero
  cases hzero

/-- There is always a configuration to start from. -/
theorem Replays.configs_ne_nil {log : List Op} {srv : Server} (h : Replays log srv) :
    srv.sc.configs ≠ [] :=
  (numbered_init.run (h.configs sortedOrders)).configs_ne_nil

theorem isSome_applyCommand {srv : Server} (hsc : srv.sc.configs ≠ []) (orders : Orders) (op : Op)
    (i : Nat) : (srv.applyCommand orders op i).isSome ↔
      (srv.completed op.clientId < op.reqNo → Applicable (last srv.sc) op.args.request) := by
  rw [Server.applyCommand]
  split
  · rename_i hnew
    rw [Option.isSome_map, isSome_apply hsc]
    exact ⟨fun h _ => h, fun h => h hnew⟩
  · rename_i hold
    exact ⟨fun _ h => absurd h hold, fun _ => rfl⟩

theorem isSome_answer {srv : Server} (hsc : srv.sc.configs ≠ []) (args : Args) :
    (srv.answer args).isSome ↔ Answerable args := by
  cases args with
  | query num => exact isSome_queryConfig hsc num
  | join _ | leave _ | move _ _ => exact ⟨fun _ => trivial, fun _ => rfl⟩

/-- **Which requests a replica survives.** A replica that has applied any log applies one more
entry, and answers its request, without a panic if and only if the request is a duplicate or
applicable to the latest configuration, and its number, if it is a query, is -1 or above. -/
theorem replica_survives_iff {orders : Nat → Orders} {log : List Op} {srv : Server}
    (h : replay orders log = some srv) (op : Op) :
    ((replay orders (log ++ [op])).isSome ∧ (srv.answer op.args).isSome) ↔
      ((srv.completed op.clientId < op.reqNo → Applicable (last srv.sc) op.args.request) ∧
        Answerable op.args) := by
  have hsc := (replays_replay h).configs_ne_nil
  rw [replay_concat, h, Option.bind_some, isSome_applyCommand hsc, isSome_answer hsc]

/-- One group joins. -/
def oneJoins : List Op := [⟨0, 1, .join (.ofList [(1, [])])⟩]

theorem oneJoins_runs : (replay (fun _ => sortedOrders) oneJoins).isSome = true := by
  decide +kernel

theorem replica_survives_move : ∃ srv, replay (fun _ => sortedOrders) oneJoins = some srv ∧
    (replay (fun _ => sortedOrders) (oneJoins ++ [⟨0, 2, .move 9 1⟩])).isSome ∧
    (srv.answer (.move 9 1)).isSome := by
  obtain ⟨srv, hsrv⟩ := Option.isSome_iff_exists.mp oneJoins_runs
  refine ⟨srv, hsrv, (replica_survives_iff hsrv ⟨0, 2, .move 9 1⟩).mpr ⟨fun _ => ?_, trivial⟩⟩
  exact ⟨by decide, by decide⟩

/-- A first join without groups divides by zero, a move of shard 10 and a query of number -2 index
out of range. -/
theorem replica_stops :
    replay (fun _ => sortedOrders) [] = some {} ∧
    replay (fun _ => sortedOrders) [⟨0, 1, .join .empty⟩] = none ∧
    replay (fun _ => sortedOrders) (oneJoins ++ [⟨0, 2, .move 10 1⟩]) = none ∧
    ∃ srv, replay (fun _ => sortedOrders) oneJoins = some srv ∧ srv.answer (.query (-2)) = none := by
  have hstops : ∀ {o : Option Server}, o.isNone = true → o = none := Option.isNone_iff_eq_none.mp
  refine ⟨rfl, hstops (by decide +kernel), hstops (by decide +kernel), ?_⟩
  obtain ⟨srv, hsrv⟩ := Option.isSome_iff_exists.mp oneJoins_runs
  refine ⟨srv, hsrv, Option.not_isSome_iff_eq_none.mp fun hsome => ?_⟩
  exact absurd ((isSome_answer (replays_replay hsrv).configs_ne_nil _).mp hsome) (by decide)

end RaftLabs.ShardCtrler
