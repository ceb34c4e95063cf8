import RaftLabs.Raft.Replication
import RaftLabs.ShardCtrler.Queries

/-! The shard controller on top of Raft.

The controller takes no snapshots: a server that starts over applies the log from its beginning.
The order of its loops over maps is open, so a server need not repeat what it did before the
restart, nor do two servers do the same; that they end up with the same configurations needs both
that Raft gives them the same commands and that no operation depends on these orders. -/
namespace RaftLabs.ShardCtrler
open Lib
variable {n : Nat}

theorem applyCommand_next {srv srv' : Server} {orders : Orders} {op : Op}
    (h : srv.applyCommand orders op (srv.commitedId + 1) = some srv') :
    srv'.commitedId = srv.commitedId + 1 := by
  rw [commitedId_applyCommand h]
  omega

/-- The controller as a service that Raft hosts; the orders of its loops are open. A server that
panics takes no further step. -/
def ctrlerService : Raft.Service Server Op Orders where
  start := {}
  apply orders srv op index := srv.applyCommand orders op index
  position := Server.commitedId
  Valid _ := True
  valid_start := trivial
  position_start := rfl
  apply_next _ h := ⟨trivial, applyCommand_next h⟩
  takesSnapshots := false
  encode _ := [default]
  decode _ := none
  decode_encode h := absurd h Bool.false_ne_true
  encode_ne_nil _ := List.cons_ne_nil _ _

/-- A server follows the log whatever the orders it applies with. -/
theorem kept_follows : AgreedLog.Kept ctrlerService.toMachine Follows where
  start := Follows.start
  mono c h := h.append [c]
  next h hop hstep := h.apply hop hstep

/-- Of two servers that follow a log, the one that is further on has the other's configurations
and perhaps more. -/
theorem Follows.configs_extend {log : List Op} {srv srv' : Server} (h : Follows log srv)
    (h' : Follows log srv') (hle : srv.commitedId ≤ srv'.commitedId) :
    srv.sc.configs <+: srv'.sc.configs := by
  obtain ⟨more, hmore⟩ := (List.take_prefix_take_left hle : log.take _ <+: log.take _)
  exact configs_prefix_replay h.state (hmore ▸ h'.state)

/-- **The controller's servers agree over Raft.** In every timely run that recovers from its crashes
there is one log that holds every command Raft delivered to some server, at its index, such that
every server has the state after as many commands of it as the server has applied; so the
configurations of any two servers are the same, up to those that one of them has not created yet. -/
theorem configs_agree_over_raft {x : Raft.InMemory (Raft.Host n Op Server) n Op}
    (hreach : (Raft.Host.carrier n ctrlerService).inMemory.Reach
      ((Raft.Host.carrier n ctrlerService).timely Raft.Host.recovers) x) :
    ∃ log, Raft.Logged x.state.raft log ∧ (∀ i, Follows log (x.state.replicas i).state) ∧
      ∀ i j, (x.state.replicas i).state.commitedId ≤ (x.state.replicas j).state.commitedId →
        (x.state.replicas i).state.sc.configs <+: (x.state.replicas j).state.sc.configs := by
  obtain ⟨a, chosen, rest, ha, hr⟩ :=
    Raft.represents_reach ctrlerService (Raft.Host.reach_of_timely hreach)
  have hfollows : ∀ i, Follows a.log (x.state.replicas i).state := by
    intro i
    rw [← hr.states i]
    exact (kept_follows.everywhere ha).states i
  exact ⟨a.log, hr.logged, hfollows, fun i j hle => (hfollows i).configs_extend (hfollows j) hle⟩

/-- Three groups join; the two servers that apply it go through the groups in opposite orders. -/
def joinRun (i j : Fin n) : List (Raft.Host.Action n Op Orders) :=
  Raft.appliedRun i j ⟨1, 1, .join (.ofList [(1, ["a"]), (2, ["b"]), (3, ["c"])])⟩ sortedOrders
    reversedOrders

theorem joinRun_runs :
    (((Raft.Host.carrier 3 ctrlerService).inMemory.runWhere
        ((Raft.Host.carrier 3 ctrlerService).timely Raft.Host.recovers)
        (Raft.Host.carrier 3 ctrlerService).inMemory.init
        (Raft.scheduled [] (joinRun 0 1))).map fun x =>
      decide ((x.state.replicas 0).state.commitedId = 1 ∧
        (x.state.replicas 1).state.commitedId = 1 ∧
        (x.state.replicas 0).state.sc.configs.length = 2)) = some true := by
  decide +kernel

theorem configs_agree_over_raft_joinRun : ∃ x : Raft.InMemory (Raft.Host 3 Op Server) 3 Op,
    (Raft.Host.carrier 3 ctrlerService).inMemory.Reach
      ((Raft.Host.carrier 3 ctrlerService).timely Raft.Host.recovers) x ∧
    (x.state.replicas 0).state.sc.configs.length = 2 ∧
    (x.state.replicas 0).state.sc.configs <+: (x.state.replicas 1).state.sc.configs := by
  obtain ⟨x, hreach, h0, h1, hlength⟩ := System.exists_reach_of_runWhere joinRun_runs
  obtain ⟨log, -, -, hagree⟩ := configs_agree_over_raft hreach
  exact ⟨x, hreach, hlength, hagree 0 1 (h0.trans h1.symm).le⟩

end RaftLabs.ShardCtrler
