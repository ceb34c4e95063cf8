import RaftLabs.ShardCtrler.Determinism
import RaftLabs.ShardKV.Invariant

/-! When a shard starts empty.

`pullShards` takes a configuration for the first one when the configuration before it has
shard 0 on gid 0. The controller produces such a configuration whenever all groups have left,
and the next group to join then starts with empty shards, whatever they held. A shard starts
empty only once if no configuration gives a shard to another group right after shard 0 was at
gid 0, once the shard had a group. -/
namespace RaftLabs.ShardKV
open Lib ShardCtrler

variable {H : ConfigHistory} {commits : List (Int × Op)} {g g' : Int} {n i j : Nat} {s : Shard}
variable {as : List (Orders × ShardCtrler.Request)} {sc : ShardCtrler} {w : World}

/-- The configurations that a run of the controller has produced. -/
def ConfigHistory.ofRun (hrun : controller.run controller.init as = some sc) : ConfigHistory where
  config n := sc.configs[n]?
  zero := (numbered_init.run hrun).zero
  num := (numbered_init.run hrun).num

/-- A configuration that follows one with shard 0 on gid 0 gives no group a shard that it did not
have there and that an earlier configuration gave to a group. -/
def ConfigHistory.NeverRestarts (H : ConfigHistory) : Prop :=
  ∀ n m s, m < n → H.owner (n - 1) 0 = 0 → H.owner n s ≠ 0 → H.owner n s ≠ H.owner (n - 1) s →
    H.owner m s = 0

/-- A group that installs a shard of a first configuration is the first to have it. -/
theorem Lawful.first_of_neverRestarts (h : Lawful H commits) (hnever : H.NeverRestarts)
    {shifts : List ShiftShard} {info : ClientInfo}
    (hi : commits[i]? = some (g, .shards shifts info)) (h0 : H.owner (n - 1) 0 = 0)
    (hinst : Installs (groupAt (commits.take i) g)
      ((groupAt (commits.take i) g).next (.shards shifts info)) n s) (hj : j ≤ i) (g' : Int) :
    (groupAt (commits.take j) g').shards s = false := by
  -- the group stands in configuration `n`, which newly gives it the shard
  obtain ⟨hno, hnum, howner, hlast⟩ := h.given hi hinst
  have hnew : H.owner n s ≠ H.owner (n - 1) s := howner ▸ hlast.symm
  have hgiven : H.owner n s ≠ 0 := howner ▸ (h.entry hi).1
  have hgrows := h.grows_take hj g
  by_contra hhas
  rw [Bool.not_eq_false] at hhas
  have hhad := (h.take j).had_of_shards hhas
  have hg' : H.owner (groupAt (commits.take j) g').curConfig.num s ≠ 0 := by
    obtain ⟨k, op, hk, -⟩ := (h.take j).exists_installs hhad
    rw [hhad.1]
    exact ((h.take j).entry hk).1
  rcases Nat.lt_trichotomy (groupAt (commits.take j) g').curConfig.num n with hlt | heq | hgt
  · exact hg' (hnever n _ s hlt h0 hgiven hnew)
  · -- it is the group itself, which would still have the shard
    obtain rfl : g' = g := by rw [← hhad.1, heq, howner]
    have hstill := hgrows.shards s (by rw [hnum, heq]) hhas
    rw [hno] at hstill
    cases hstill
  · -- the group has moved on from `n` already
    have hself : Had H (commits.take j) (H.owner (groupAt (commits.take j) g').curConfig.num s)
        (groupAt (commits.take j) g').curConfig.num s := by
      rw [hhad.1]
      exact hhad
    have hmoved := ((h.take j).descend hself hg' hgt fun k hk _ hk' hnew' h0' =>
      hgiven (hnever k n s hk h0' hk' hnew')).2
    rw [howner] at hmoved
    have hle := hgrows.num
    omega

/-- **Shards start empty once.** Over the configurations of any run of the controller that never
restarts a shard: a group installs a shard in a configuration that `pullShards` takes for the
first one only if no group had this shard at any earlier point of the run. -/
theorem first_install_of_neverRestarts (hrun : controller.run controller.init as = some sc)
    (hnever : (ConfigHistory.ofRun hrun).NeverRestarts)
    (hw : (service (.ofRun hrun)).Reach System.anyStep w) {shifts : List ShiftShard}
    {info : ClientInfo} (hi : w.commits[i]? = some (g, .shards shifts info))
    (h0 : (ConfigHistory.ofRun hrun).owner (n - 1) 0 = 0)
    (hinst : Installs (groupAt (w.commits.take i) g) (groupAt (w.commits.take (i + 1)) g) n s) :
    ∀ j ≤ i, ∀ g', (groupAt (w.commits.take j) g').shards s = false := by
  rw [groupAt_take_succ hi] at hinst
  exact fun j hj g' => (sound_of_reach hw).lawful.first_of_neverRestarts hnever hi h0 hinst hj g'

/-! ### Groups join -/

/-- What the controller has after a run. -/
def controllerAfter (as : List (Orders × ShardCtrler.Request)) : ShardCtrler :=
  (controller.run controller.init as).getD {}

theorem run_eq_controllerAfter (h : (controller.run controller.init as).isSome = true) :
    controller.run controller.init as = some (controllerAfter as) := by
  obtain ⟨sc, hsc⟩ := Option.isSome_iff_exists.mp h
  rw [controllerAfter, hsc]
  rfl

/-- One group joins. -/
def oneJoins : List (Orders × ShardCtrler.Request) :=
  [(sortedOrders, .join (.ofList [(1, ["a"])]))]

/-- Group 1 joins and leaves, then group 2 joins. -/
def leaveAndJoin : List (Orders × ShardCtrler.Request) :=
  [(sortedOrders, .join (.ofList [(1, ["a"])])), (sortedOrders, .leave [1]),
   (sortedOrders, .join (.ofList [(2, ["b"])]))]

theorem oneJoins_runs : (controller.run controller.init oneJoins).isSome = true := by
  decide +kernel

theorem leaveAndJoin_runs : (controller.run controller.init leaveAndJoin).isSome = true := by
  decide +kernel

def oneJoinsHistory : ConfigHistory := .ofRun (run_eq_controllerAfter oneJoins_runs)

def leaveAndJoinHistory : ConfigHistory := .ofRun (run_eq_controllerAfter leaveAndJoin_runs)

def Op.isShards : Op → Bool
  | .shards _ _ => true
  | _ => false

theorem Op.exists_of_isShards {op : Op} (h : op.isShards = true) :
    ∃ shifts info, op = .shards shifts info := by
  cases op with
  | shards shifts info => exact ⟨shifts, info, rfl⟩
  | client => cases h
  | config => cases h

/-- Group `g` takes up its next configuration and looks for its shards. -/
def takeUp (g : Int) : List Action :=
  [.updateConfig g 0 true, .commit g 0 0, .checkMissShards g 0 true, .commit g 0 0]

/-- A `Put` at group 1 before it leaves, a `Get` at group 2 after it joined. -/
def putThenGet : List Action :=
  takeUp 1 ++
  [.invoke 7 (.putAppend .put "k" "v"), .attempt 7 1 0, .enter 0 true true, .commit 1 0 0,
   .receive 0 0, .finish 7, .updateConfig 1 0 true, .commit 1 0 0,
   .updateConfig 2 0 true, .commit 2 0 0, .updateConfig 2 0 true, .commit 2 0 0] ++
  takeUp 2 ++
  [.invoke 8 (.get "k"), .attempt 8 2 0, .enter 1 true true, .commit 2 0 0, .receive 1 1, .finish 8]

theorem putThenGet_runs :
    (((service leaveAndJoinHistory).run (service leaveAndJoinHistory).init putThenGet).map
      fun w => decide ((w.commits[7]?.map fun e => (e.1, e.2.isShards)) = some (2, true) ∧
        ((groupAt (w.commits.take 7) 2).shards (key2shard "k") = false ∧
          (groupAt (w.commits.take 8) 2).shards (key2shard "k") = true ∧
          (groupAt (w.commits.take 8) 2).curConfig.num = 3 ∧
          (groupAt (w.commits.take 8) 2).shardKVMap "k" = none) ∧
        (groupAt (w.commits.take 3) 1).shards (key2shard "k") = true ∧
        w.trace.map (·.1) =
          [.invoke (7, 1) (.putAppend .put "k" "v"), .respond (7, 1) (.putAppend .put "k" "v") "",
           .invoke (8, 2) (.get "k"), .respond (8, 2) (.get "k") ""])) = some true := by
  decide +kernel

/-- Group 2 starts with empty shards although group 1 had them: the `Put` is lost. -/
theorem first_install_putThenGet : ∃ w,
    (service leaveAndJoinHistory).Reach System.anyStep w ∧
    (∃ shifts info, w.commits[7]? = some (2, .shards shifts info) ∧
      leaveAndJoinHistory.owner (3 - 1) 0 = 0 ∧
      Installs (groupAt (w.commits.take 7) 2) (groupAt (w.commits.take 8) 2) 3 (key2shard "k") ∧
      (groupAt (w.commits.take 8) 2).shardKVMap "k" = none) ∧
    (groupAt (w.commits.take 3) 1).shards (key2shard "k") = true ∧
    w.trace.map (·.1) =
      [.invoke (7, 1) (.putAppend .put "k" "v"), .respond (7, 1) (.putAppend .put "k" "v") "",
       .invoke (8, 2) (.get "k"), .respond (8, 2) (.get "k") ""] := by
  obtain ⟨w, hrun, hw⟩ := Option.map_eq_some_iff.mp putThenGet_runs
  obtain ⟨hentry, ⟨hbefore, hafter, hnum, hnone⟩, hserved, htrace⟩ := of_decide_eq_true hw
  obtain ⟨⟨g, op⟩, hop, heq⟩ := Option.map_eq_some_iff.mp hentry
  obtain ⟨rfl, hshards⟩ := Prod.mk.inj heq
  obtain ⟨shifts, info, rfl⟩ := Op.exists_of_isShards hshards
  refine ⟨w, System.reach_run .init (fun _ _ => trivial) _ hrun, ⟨shifts, info, hop, ?_, ?_, hnone⟩,
    hserved, htrace⟩
  · decide +kernel
  · exact ⟨hafter, hnum, by simp [hbefore]⟩

theorem oneJoins_neverRestarts : oneJoinsHistory.NeverRestarts := by
  intro n m s hm _ hn _
  have hlen : (controllerAfter oneJoins).configs.length = 2 := by decide +kernel
  have hlt : n < 2 := by
    by_contra hge
    refine hn ?_
    have hnone : oneJoinsHistory.config n = none :=
      List.getElem?_eq_none (hlen ▸ Nat.not_lt.mp hge)
    simp [ConfigHistory.owner, hnone]
  obtain rfl : m = 0 := by omega
  exact ConfigHistory.owner_zero _ s

theorem takeUp_runs : (((service oneJoinsHistory).run (service oneJoinsHistory).init (takeUp 1)).map
    fun w => decide ((w.commits[1]?.map fun e => (e.1, e.2.isShards)) = some (1, true) ∧
      (groupAt (w.commits.take 1) 1).shards 0 = false ∧
      (groupAt (w.commits.take 2) 1).shards 0 = true ∧
      (groupAt (w.commits.take 2) 1).curConfig.num = 1)) = some true := by
  decide +kernel

theorem first_install_takeUp : ∃ w, (service oneJoinsHistory).Reach System.anyStep w ∧
    Installs (groupAt (w.commits.take 1) 1) (groupAt (w.commits.take 2) 1) 1 0 ∧
    ∀ j ≤ 1, ∀ g, (groupAt (w.commits.take j) g).shards 0 = false := by
  obtain ⟨w, hrun, hw⟩ := Option.map_eq_some_iff.mp takeUp_runs
  obtain ⟨hentry, hbefore, hafter, hnum⟩ := of_decide_eq_true hw
  obtain ⟨⟨g, op⟩, hop, heq⟩ := Option.map_eq_some_iff.mp hentry
  obtain ⟨rfl, hshards⟩ := Prod.mk.inj heq
  obtain ⟨shifts, info, rfl⟩ := Op.exists_of_isShards hshards
  have hreach := System.reach_run .init (fun _ _ => trivial) _ hrun
  have hinst : Installs (groupAt (w.commits.take 1) 1) (groupAt (w.commits.take 2) 1) 1 0 :=
    ⟨hafter, hnum, by simp [hbefore]⟩
  exact ⟨w, hreach, hinst, first_install_of_neverRestarts _ oneJoins_neverRestarts hreach hop
    (ConfigHistory.owner_zero _ 0) hinst⟩

end RaftLabs.ShardKV
