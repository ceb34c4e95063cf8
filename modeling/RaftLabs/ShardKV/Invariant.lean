import RaftLabs.ShardKV.Custody

/-! The invariant of the service: the logs stay lawful.

Every replica, and every snapshot, agrees with what a prefix of its group's log computes, up to
the docks that garbage collection has dropped. So whatever a replica proposes or answers comes
from a state its group was in, and can be added to the group's log. -/
namespace RaftLabs.ShardKV
open Lib ShardCtrler

variable {H : ConfigHistory} {commits : List (Int × Op)} {base skv : ShardKV} {g : Int}
variable {w w' : World}

/-! ### What the scheduler can do -/

/-- The outcomes of an action, with what was checked before. -/
inductive Stepped (H : ConfigHistory) (w : World) : World → Prop
  | invoke {c : Nat} {request : Request} (idle : (w.clerks c).request = none) :
      Stepped H w (w.invoke c request)
  | attempt {c : Nat} {request : Request} {g : Int} {r : Nat}
      (busy : (w.clerks c).request = some request) (free : (w.clerks c).pending = none)
      (gid : g ≠ 0) : Stepped H w (w.attempt c request g r)
  | enter {k : Nat} {call : Call} {isLeader started : Bool} (hcall : w.calls[k]? = some call)
      (sent : call.progress = .sent) : Stepped H w (w.enter k call isLeader started)
  | receive {k : Nat} {call : Call} {result : Result} (hcall : w.calls[k]? = some call)
      (waiting : call.progress = .waiting) (hresult : (k, result) ∈ w.results) :
      Stepped H w (w.answer k call (received call.args result))
  | timeout {k : Nat} {call : Call} (hcall : w.calls[k]? = some call)
      (waiting : call.progress = .waiting) : Stepped H w (w.answer k call { err := .timeOut })
  | fail {c : Nat} : Stepped H w (w.setClerk c { w.clerks c with pending := none })
  | finish {c k : Nat} {request : Request} {call : Call} {reply : Reply}
      (busy : (w.clerks c).request = some request) (pending : (w.clerks c).pending = some k)
      (hcall : w.calls[k]? = some call) (replied : call.progress = .replied reply)
      (err : reply.err = .ok ∨ reply.err = .noKey) : Stepped H w (w.finish c request reply)
  | commit {g : Int} {r j : Nat} {op : Op} (gid : g ≠ 0)
      (last : (w.skv g r).commitedId = (logOf g w.commits).length)
      (proposed : (w.groups g).proposals[j]? = some op) :
      Stepped H w ((w.commit g j op).apply g r op)
  | apply {g : Int} {r : Nat} {op : Op}
      (entry : (logOf g w.commits)[(w.skv g r).commitedId]? = some op) :
      Stepped H w (w.apply g r op)
  | updateConfig {g : Int} {r : Nat} {cfg : Config}
      (config : H.config ((w.skv g r).curConfig.num + 1) = some cfg) :
      Stepped H w (w.propose g (.config cfg))
  | pull {g : Int} {r : Nat} : Stepped H w (w.pull g r)
  | shardDock {pull : Pull} {r : Nat} {op : Op} (hpull : pull ∈ w.pulls)
      (dock : (w.skv pull.target r).shardDock pull.configNum pull.shardIds = some op) :
      Stepped H w (w.propose pull.gid op)
  | sayHello {g : Int} {r : Nat} :
      Stepped H w (w.setReplica g r
        { w.replica g r with
          round := some ((w.skv g r).curConfig, (w.skv g r).gid2UnCompletedConfigNum) })
  | hello {g target : Int} {r replica : Nat} {cfg : Config} {nums : GoMap Int Nat}
      (round : (w.replica g r).round = some (cfg, nums)) (htarget : target ≠ 0) :
      Stepped H w (w.setReplica g r
        { w.replica g r with
          round := some (cfg,
            nums.set target (max (nums.getD target 0) (w.skv target replica).hello)) })
  | clean {g : Int} {r : Nat} {merge order : RangeOrder Int} {cfg : Config}
      {nums : GoMap Int Nat} (round : (w.replica g r).round = some (cfg, nums)) :
      Stepped H w (w.setReplica g r
        { w.replica g r with skv := (w.skv g r).heard merge order nums, round := none })
  | snapshot {g : Int} {r : Nat} :
      Stepped H w (w.setGroup g
        { w.groups g with
          snapshots := (w.groups g).snapshots ++ [w.skv g r]
          replicas := Function.update (w.groups g).replicas r
            { w.replica g r with persisted := some (w.skv g r) } })
  | install {g : Int} {r : Nat} {data : ShardKV} (hdata : data ∈ (w.groups g).snapshots) :
      Stepped H w (w.setReplica g r
        { w.replica g r with
          persisted := some data
          skv := (w.skv g r).applySnapshot data.commitedId data })
  | restart {g : Int} {r : Nat} : Stepped H w (w.restart g r)

theorem step_cases {a : Action} (h : step H w a = some w') : Stepped H w w' := by
  cases a with
  | invoke c request =>
    obtain ⟨hidle, heq⟩ := Option.ite_none_right_eq_some.mp h
    cases heq
    exact .invoke hidle
  | attempt c g r =>
    simp only [step] at h
    split at h
    · obtain ⟨hg, heq⟩ := Option.ite_none_left_eq_some.mp h
      cases heq
      exact .attempt ‹_› ‹_› hg
    · cases h
  | enter k isLeader started =>
    simp only [step] at h
    split at h
    · cases h
    · obtain ⟨hsent, heq⟩ := Option.ite_none_right_eq_some.mp h
      cases heq
      exact .enter ‹_› hsent
  | receive k i =>
    simp only [step] at h
    split at h
    · rename_i call chan result hcall hresult
      obtain ⟨⟨hwait, rfl⟩, heq⟩ := Option.ite_none_right_eq_some.mp h
      cases heq
      exact .receive hcall hwait (List.mem_of_getElem? hresult)
    · cases h
  | timeout k =>
    simp only [step] at h
    split at h
    · cases h
    · obtain ⟨hwait, heq⟩ := Option.ite_none_right_eq_some.mp h
      cases heq
      exact .timeout ‹_› hwait
  | fail c =>
    obtain ⟨-, heq⟩ := Option.ite_none_left_eq_some.mp h
    cases heq
    exact .fail
  | finish c =>
    simp only [step] at h
    split at h
    · rename_i request call hbusy hcall
      obtain ⟨k, hk, hcall⟩ := Option.bind_eq_some_iff.mp hcall
      split at h
      · rename_i reply hreplied
        obtain ⟨herr, heq⟩ := Option.ite_none_right_eq_some.mp h
        cases heq
        exact .finish hbusy hk hcall hreplied (herr.imp_right And.left)
      · cases h
    · cases h
  | commit g r j =>
    obtain ⟨hguard, heq⟩ := Option.ite_none_left_eq_some.mp h
    obtain ⟨op, hop, rfl⟩ := Option.map_eq_some_iff.mp heq
    rw [not_or, not_not] at hguard
    exact .commit hguard.1 hguard.2 hop
  | apply g r =>
    obtain ⟨op, hop, rfl⟩ := Option.map_eq_some_iff.mp h
    exact .apply hop
  | updateConfig g r isLeader =>
    obtain ⟨cfg, hcfg, heq⟩ := Option.bind_eq_some_iff.mp h
    obtain ⟨op, hop, rfl⟩ := Option.map_eq_some_iff.mp heq
    obtain ⟨-, hcfg'⟩ := Option.ite_none_right_eq_some.mp hop
    cases hcfg'
    exact .updateConfig hcfg
  | checkMissShards g r isLeader =>
    obtain ⟨-, heq⟩ := Option.ite_none_right_eq_some.mp h
    cases heq
    exact .pull
  | shardDock j r =>
    obtain ⟨pull, hpull, heq⟩ := Option.bind_eq_some_iff.mp h
    obtain ⟨op, hop, rfl⟩ := Option.map_eq_some_iff.mp heq
    exact .shardDock (List.mem_of_getElem? hpull) hop
  | sayHello g r =>
    cases h
    exact .sayHello
  | hello g r target replica isLeader =>
    simp only [step] at h
    split at h
    · cases h
    · rename_i cfg nums hround
      obtain ⟨⟨-, -, -, htarget⟩, heq⟩ := Option.ite_none_right_eq_some.mp h
      cases heq
      exact .hello hround htarget
  | clean g r merge order =>
    obtain ⟨⟨cfg, nums⟩, hround, rfl⟩ := Option.map_eq_some_iff.mp h
    exact .clean hround
  | snapshot g r =>
    cases h
    exact .snapshot
  | install g r j =>
    obtain ⟨data, hdata, rfl⟩ := Option.map_eq_some_iff.mp h
    exact .install (List.mem_of_getElem? hdata)
  | restart g r =>
    cases h
    exact .restart

/-! ### A server and its log -/

/-- A server against the replay of its log: garbage collection drops the two records of a
configuration together, and only a server's own reports differ otherwise. -/
structure Agrees (base skv : ShardKV) : Prop where
  gid : skv.gid = base.gid
  commitedId : skv.commitedId = base.commitedId
  lastConfig : skv.lastConfig = base.lastConfig
  curConfig : skv.curConfig = base.curConfig
  shards : skv.shards = base.shards
  shardKVMap : skv.shardKVMap = base.shardKVMap
  clientInfo : skv.clientInfo = base.clientInfo
  docks : ∀ n, (skv.outShardsDock n = none ∧ skv.config2ClientInfo n = none) ∨
    (skv.outShardsDock n = base.outShardsDock n ∧
      skv.config2ClientInfo n = base.config2ClientInfo n)

theorem Agrees.refl (skv : ShardKV) : Agrees skv skv :=
  ⟨rfl, rfl, rfl, rfl, rfl, rfl, rfl, fun _ => .inr ⟨rfl, rfl⟩⟩

theorem Agrees.consistent (h : Agrees base skv) (hbase : Consistent base) : Consistent skv where
  mine := by
    rw [h.shards, h.curConfig, h.gid]
    exact hbase.mine
  keys := by
    rw [h.shards, h.shardKVMap]
    exact hbase.keys
  shift n dock s shift hdock hs := by
    rcases h.docks n with ⟨hnone, -⟩ | ⟨heq, -⟩
    · rw [hnone] at hdock
      cases hdock
    · exact hbase.shift n dock s shift (heq.symm.trans hdock) hs

theorem Agrees.isMigrateFinished (h : Agrees base skv) :
    skv.isMigrateFinished = base.isMigrateFinished := by
  simp only [ShardKV.isMigrateFinished, unFinishedShards, h.curConfig, h.gid, h.shards]

theorem Agrees.acceptShard (h : Agrees base skv) (shift : ShiftShard) :
    Agrees (base.acceptShard shift) (skv.acceptShard shift) := by
  have hacc : skv.accepts shift = base.accepts shift := by
    simp only [accepts, h.curConfig, h.gid, h.shards]
  unfold ShardKV.acceptShard
  rw [hacc]
  split
  · exact ⟨h.gid, h.commitedId, h.lastConfig, h.curConfig, by rw [h.shards],
      by rw [h.shardKVMap], h.clientInfo, h.docks⟩
  · exact h

theorem Agrees.foldl_acceptShard (h : Agrees base skv) (shifts : List ShiftShard) :
    Agrees (shifts.foldl ShardKV.acceptShard base) (shifts.foldl ShardKV.acceptShard skv) := by
  induction shifts generalizing base skv with
  | nil => exact h
  | cons shift rest ih => exact ih (h.acceptShard shift)

theorem Agrees.applyOp (h : Agrees base skv) (op : Op) :
    Agrees (base.applyOp op) (skv.applyOp op) := by
  cases op with
  | client args =>
    have herr : skv.opErr args.shardId = base.opErr args.shardId := by
      simp only [opErr, h.curConfig, h.gid, h.shards]
    simp only [ShardKV.applyOp, h.clientInfo]
    split
    · exact ⟨h.gid, h.commitedId, h.lastConfig, h.curConfig, h.shards,
        by simp only [doOperation, herr, h.shardKVMap],
        by simp only [doOperation, herr, h.clientInfo], h.docks⟩
    · exact h
  | config cfg =>
    have hout : skv.makeOutShards cfg = base.makeOutShards cfg := by
      funext s
      have hs : skv.outShards cfg s = base.outShards cfg s := by
        simp only [outShards, h.gid, h.shards]
      simp only [makeOutShards, hs, h.shardKVMap]
    have hkeep : skv.keepShards cfg = base.keepShards cfg := by
      funext s
      simp only [keepShards, h.gid, h.shards]
    simp only [ShardKV.applyOp, doUpdateConfig, h.curConfig, h.isMigrateFinished]
    split
    · exact h
    · split
      · exact h
      · refine ⟨h.gid, h.commitedId, rfl, rfl, hkeep, by simp only [hkeep, h.shardKVMap],
          h.clientInfo, fun n => ?_⟩
        by_cases hn : n = cfg.num
        · subst hn
          simp [hout, h.clientInfo]
        · simpa [Function.update_of_ne hn] using h.docks n
  | shards shifts info =>
    obtain ⟨hg, hi, hl, hc, hs, hk, hinfo, hd⟩ := h.foldl_acceptShard shifts
    exact ⟨hg, hi, hl, hc, hs, hk, by simp only [ShardKV.applyOp, acceptShards, hinfo], hd⟩

theorem Agrees.next (h : Agrees base skv) (op : Op) : Agrees (base.next op) (skv.next op) := by
  obtain ⟨hg, hi, hl, hc, hs, hk, hinfo, hd⟩ := h.applyOp op
  exact ⟨hg, by simp only [ShardKV.next, applyCommand, h.commitedId], hl, hc, hs, hk, hinfo, hd⟩

/-- A round of `sayHello` may drop docks, and nothing else. -/
theorem Agrees.heard (h : Agrees base skv) (merge order : RangeOrder Int) (nums : GoMap Int Nat) :
    Agrees base (skv.heard merge order nums) := by
  obtain ⟨hg, hi, hl, hc, hs, hk, hinfo, hd⟩ := h
  unfold ShardKV.heard
  dsimp only
  split
  · refine ⟨hg, hi, hl, hc, hs, hk, hinfo, fun n => ?_⟩
    simp only [clean]
    split
    · exact .inl ⟨rfl, rfl⟩
    · exact hd n
  · exact ⟨hg, hi, hl, hc, hs, hk, hinfo, hd⟩

/-- The server is what a prefix of the log leaves, up to garbage collection. -/
def IsReplay (commits : List (Int × Op)) (g : Int) (skv : ShardKV) : Prop :=
  ∃ q ≤ commits.length, Agrees (groupAt (commits.take q) g) skv

theorem IsReplay.start (commits : List (Int × Op)) (g : Int) :
    IsReplay commits g (startServer g none) :=
  ⟨0, Nat.zero_le _, Agrees.refl _⟩

theorem IsReplay.concat (h : IsReplay commits g skv) (x : Int × Op) :
    IsReplay (commits ++ [x]) g skv := by
  obtain ⟨q, hq, hagrees⟩ := h
  refine ⟨q, ?_, ?_⟩
  · rw [List.length_append]
    exact hq.trans (Nat.le_add_right _ _)
  · rwa [List.take_append_of_le_length hq]

/-- The next entry of a group's log after a prefix of all logs. -/
theorem exists_next {q : Nat} {op : Op}
    (h : (logOf g commits)[(logOf g (commits.take q)).length]? = some op) :
    ∃ i ≥ q, commits[i]? = some (g, op) ∧ logOf g (commits.take i) = logOf g (commits.take q) := by
  -- induction on the number of entries after the prefix
  induction hd : commits.length - q generalizing q with
  | zero =>
    rw [List.take_of_length_le (by omega), List.getElem?_eq_none (Nat.le_refl _)] at h
    cases h
  | succ d ih =>
    have hq : q < commits.length := by omega
    obtain ⟨⟨g', op'⟩, hx⟩ : ∃ x, commits[q]? = some x := ⟨_, List.getElem?_eq_getElem hq⟩
    have htake : logOf g (commits.take (q + 1)) =
        logOf g (commits.take q) ++ logOf g [(g', op')] := by
      rw [List.take_add_one, hx, logOf_append]
      rfl
    by_cases hg : g' = g
    · subst hg
      have hone : logOf g' [(g', op')] = [op'] := by simp [logOf]
      have hop : op' = op := by
        have hcommits : logOf g' commits =
            logOf g' (commits.take (q + 1)) ++ logOf g' (commits.drop (q + 1)) := by
          rw [← logOf_append, List.take_append_drop]
        rw [hcommits, htake, hone, List.append_assoc,
          List.getElem?_append_right (Nat.le_refl _), Nat.sub_self] at h
        exact Option.some.inj h
      exact ⟨q, Nat.le_refl q, hop ▸ hx, rfl⟩
    · have hnone : logOf g [(g', op')] = [] := by simp [logOf, hg]
      rw [hnone, List.append_nil] at htake
      obtain ⟨i, hi, hentry, hlog⟩ := ih (htake ▸ h) (by omega)
      exact ⟨i, Nat.le_of_succ_le hi, hentry, hlog.trans htake⟩

/-- A server applies the next entry of its log. -/
theorem IsReplay.next {op : Op} (h : IsReplay commits g skv)
    (hop : (logOf g commits)[skv.commitedId]? = some op) : IsReplay commits g (skv.next op) := by
  obtain ⟨q, hq, hagrees⟩ := h
  rw [hagrees.commitedId, groupAt, commitedId_replay] at hop
  obtain ⟨i, -, hi, hlog⟩ := exists_next hop
  refine ⟨i + 1, (List.getElem?_eq_some_iff.mp hi).1, ?_⟩
  rw [groupAt_take_succ hi, groupAt, hlog]
  exact hagrees.next op

theorem IsReplay.gid (h : IsReplay commits g skv) : skv.gid = g := by
  obtain ⟨q, -, hagrees⟩ := h
  rw [hagrees.gid, gid_groupAt]

/-- Dropping docks keeps a server a replay. -/
theorem IsReplay.heard (h : IsReplay commits g skv) (merge order : RangeOrder Int)
    (nums : GoMap Int Nat) : IsReplay commits g (skv.heard merge order nums) := by
  obtain ⟨q, hq, hagrees⟩ := h
  exact ⟨q, hq, hagrees.heard merge order nums⟩

theorem IsReplay.readSnapshot {data : ShardKV} (h : IsReplay commits g data)
    (hg : skv.gid = g) : IsReplay commits g (skv.readSnapshot (some data)) := by
  have heq : skv.readSnapshot (some data) = data := by
    simp only [ShardKV.readSnapshot, hg, ← h.gid]
  rwa [heq]

theorem IsReplay.applySnapshot {data : ShardKV} (h : IsReplay commits g skv)
    (hdata : IsReplay commits g data) (i : Nat) : IsReplay commits g (skv.applySnapshot i data) := by
  unfold ShardKV.applySnapshot
  split
  · exact hdata.readSnapshot h.gid
  · exact h

/-! ### Lawful proposals -/

theorem OpLawful.concat {op : Op} {x : Int × Op} (h : OpLawful H commits g op)
    (hlaw : Lawful H (commits ++ [x])) : OpLawful H (commits ++ [x]) g op := by
  have hgrows : ∀ g, Grows (groupAt commits g) (groupAt (commits ++ [x]) g) := by
    intro g
    have := hlaw.grows commits.length g
    rwa [List.take_left] at this
  cases h with
  | client hargs => exact .client hargs
  | config hcfg hnum => exact .config hcfg (hnum.trans (Nat.succ_le_succ (hgrows g).num))
  | first hfirst => exact .first hfirst
  | @docked p n _ _ hdocked =>
    refine .docked ⟨hdocked.owner, fun shift hshift => ?_, (hgrows p).info n _ hdocked.info⟩
    obtain ⟨dock, hdock, hs⟩ := hdocked.dock shift hshift
    exact ⟨dock, (hgrows p).dock n dock hdock, hs⟩

section Replica
variable (hlaw : Lawful H commits) (hrep : IsReplay commits g skv)
include hlaw hrep

theorem IsReplay.num_le : skv.curConfig.num ≤ (groupAt commits g).curConfig.num := by
  obtain ⟨q, hq, hagrees⟩ := hrep
  rw [hagrees.curConfig]
  exact (hlaw.grows q g).num

/-- `updateConfig` proposes a configuration at most one ahead of the group. -/
theorem IsReplay.config_lawful {cfg : Config}
    (hcfg : H.config (skv.curConfig.num + 1) = some cfg) : OpLawful H commits g (.config cfg) := by
  have hnum : cfg.num = skv.curConfig.num + 1 := H.num _ _ hcfg
  refine .config (hnum ▸ hcfg) ?_
  rw [hnum]
  exact Nat.succ_le_succ (hrep.num_le hlaw)

/-- The last configuration of a replica is the controller's. -/
theorem IsReplay.lastConfig_owner (s : Shard) :
    H.owner (skv.curConfig.num - 1) s = skv.lastConfig.shards s := by
  obtain ⟨q, -, hagrees⟩ := hrep
  rw [hagrees.curConfig, hagrees.lastConfig]
  exact ConfigHistory.owner_eq ((hlaw.take q).held g).last s

/-- `pullShards` proposes the first configuration's shards only then. -/
theorem IsReplay.first_lawful {op : Op} (hop : skv.pullShards = .inl op) :
    OpLawful H commits g op := by
  unfold pullShards at hop
  split at hop
  · rename_i hfirst
    cases hop
    exact .first ((hrep.lastConfig_owner hlaw 0).trans hfirst)
  · cases hop

/-- `pullShards` asks a group only for shards it had in the last configuration. -/
theorem IsReplay.pull_owner {pulls : List Pull} (hop : skv.pullShards = .inr pulls) :
    ∀ pull ∈ pulls, ∀ s ∈ pull.shardIds, H.owner (pull.configNum - 1) s = pull.target := by
  unfold pullShards at hop
  split at hop
  · cases hop
  · cases hop
    intro pull hpull s hs
    obtain ⟨gid, -, rfl⟩ := List.mem_map.mp hpull
    rw [hrep.lastConfig_owner hlaw s]
    simpa using (List.mem_filter.mp hs).2

/-- What `ShardDock` answers is in the dock of the group. -/
theorem IsReplay.shardDock_lawful {n : Nat} {shardIds : List Shard} {op : Op} {g' : Int}
    (howner : ∀ s ∈ shardIds, H.owner (n - 1) s = g)
    (hop : skv.shardDock n shardIds = some op) : OpLawful H commits g' op := by
  obtain ⟨q, -, hagrees⟩ := hrep
  have hgrows := hlaw.grows q g
  have hheld := (hlaw.take q).held g
  unfold shardDock at hop
  split at hop
  · cases hop
  · rename_i dock hdock
    obtain ⟨-, heq⟩ := Option.ite_none_left_eq_some.mp hop
    cases heq
    rcases hagrees.docks n with ⟨hnone, -⟩ | ⟨hd, hinfo⟩
    · rw [hnone] at hdock
      cases hdock
    · rw [hd] at hdock
      obtain ⟨info, hi⟩ := Option.isSome_iff_exists.mp (hheld.dock n dock hdock).2
      rw [hinfo, hi]
      have hshift : ∀ shift ∈ shardIds.filterMap dock,
          ∃ s ∈ shardIds, shift.shardId = s ∧ dock s = some shift := by
        intro shift hshift
        obtain ⟨s, hs, hds⟩ := List.mem_filterMap.mp hshift
        exact ⟨s, hs, (hheld.shift n dock s shift hdock hds).2.1, hds⟩
      refine .docked ⟨fun shift hmem => ?_, fun shift hmem => ?_, hgrows.info n info hi⟩
      · obtain ⟨s, hs, rfl, -⟩ := hshift shift hmem
        exact howner _ hs
      · obtain ⟨s, -, rfl, hds⟩ := hshift shift hmem
        exact ⟨dock, hgrows.dock n dock hdock, hds⟩

end Replica

/-! ### The invariant -/

structure ReplicaSound (commits : List (Int × Op)) (g : Int) (replica : Replica) : Prop where
  skv : IsReplay commits g replica.skv
  saved : ∀ data, replica.persisted = some data → IsReplay commits g data

structure GroupSound (H : ConfigHistory) (commits : List (Int × Op)) (g : Int)
    (group : Group) : Prop where
  proposed : g ≠ 0 → ∀ op ∈ group.proposals, OpLawful H commits g op
  replica : ∀ r, ReplicaSound commits g (group.replicas r)
  snapshot : ∀ data ∈ group.snapshots, IsReplay commits g data

structure Sound (H : ConfigHistory) (w : World) : Prop where
  lawful : Lawful H w.commits
  group : ∀ g, GroupSound H w.commits g (w.groups g)
  pull : ∀ pull ∈ w.pulls, ∀ s ∈ pull.shardIds, H.owner (pull.configNum - 1) s = pull.target
  call : ∀ call ∈ w.calls, call.args.shardId = key2shard call.args.key

theorem Sound.initial (H : ConfigHistory) : Sound H .initial where
  lawful := .nil
  group g := ⟨fun _ _ h => (nomatch h), fun _ => ⟨IsReplay.start _ g, fun _ h => nomatch h⟩,
    fun _ h => nomatch h⟩
  pull _ h := nomatch h
  call _ h := nomatch h

section Steps
variable {group : Group} {rep : Replica} {op : Op} {r k : Nat} {call : Call}

theorem GroupSound.setReplica (h : GroupSound H commits g group)
    (hrep : ReplicaSound commits g rep) (r : Nat) :
    GroupSound H commits g { group with replicas := Function.update group.replicas r rep } where
  proposed := h.proposed
  replica := (Function.forall_update_iff group.replicas fun _ => ReplicaSound commits g).mpr
    ⟨hrep, fun r' _ => h.replica r'⟩
  snapshot := h.snapshot

theorem GroupSound.concat (h : GroupSound H commits g group) {x : Int × Op}
    (hlaw : Lawful H (commits ++ [x])) : GroupSound H (commits ++ [x]) g group where
  proposed hg op hop := (h.proposed hg op hop).concat hlaw
  replica r := ⟨(h.replica r).skv.concat x, fun data hd => ((h.replica r).saved data hd).concat x⟩
  snapshot data hd := (h.snapshot data hd).concat x

theorem Sound.replica (h : Sound H w) (g : Int) (r : Nat) :
    ReplicaSound w.commits g (w.replica g r) :=
  (h.group g).replica r

theorem Sound.setGroup (h : Sound H w) (hgroup : GroupSound H w.commits g group) :
    Sound H (w.setGroup g group) where
  lawful := h.lawful
  group := (Function.forall_update_iff w.groups fun g => GroupSound H w.commits g).mpr
    ⟨hgroup, fun g' _ => h.group g'⟩
  pull := h.pull
  call := h.call

theorem Sound.setReplica (h : Sound H w) (hrep : ReplicaSound w.commits g rep) (r : Nat) :
    Sound H (w.setReplica g r rep) :=
  h.setGroup ((h.group g).setReplica hrep r)

theorem Sound.propose (h : Sound H w) (hop : g ≠ 0 → OpLawful H w.commits g op) :
    Sound H (w.propose g op) := by
  refine h.setGroup ⟨fun hg op' hop' => ?_, (h.group g).replica, (h.group g).snapshot⟩
  rcases List.mem_append.mp hop' with hold | hnew
  · exact (h.group g).proposed hg op' hold
  · rw [List.mem_singleton.mp hnew]
    exact hop hg

theorem Sound.advance (h : Sound H w) (hcall : w.calls[k]? = some call) (progress : Progress) :
    Sound H (w.advance k call progress) where
  lawful := h.lawful
  group := h.group
  pull := h.pull
  call call' hmem := by
    rcases List.mem_or_eq_of_mem_set hmem with hold | rfl
    · exact h.call call' hold
    · exact h.call call (List.mem_of_getElem? hcall)

theorem Sound.setChan (h : Sound H w) (call : Call) (chan : Option Nat) :
    Sound H (w.setChan call chan) := by
  refine h.setReplica ?_ _
  exact ⟨(h.replica _ _).skv, (h.replica _ _).saved⟩

/-- A handler proposes the request it was sent. -/
theorem serve_start {isLeader : Bool} {args : Args} (h : skv.serve isLeader args = .start op) :
    op = .client args := by
  cases args <;> simp only [serve, get, putAppend, ShardKV.enter] at h <;>
    split at h <;> try split at h <;> try split at h
  all_goals cases h
  all_goals rfl

theorem Sound.enter (h : Sound H w) (hcall : w.calls[k]? = some call) (isLeader started : Bool) :
    Sound H (w.enter k call isLeader started) := by
  unfold World.enter
  split
  · exact h.advance hcall _
  · rename_i op hop
    split
    · have hlawful : OpLawful H w.commits call.gid op := by
        rw [serve_start hop]
        exact .client (h.call call (List.mem_of_getElem? hcall))
      exact ((h.propose fun _ => hlawful).setChan call _).advance hcall _
    · exact h.advance hcall _

theorem Sound.apply (h : Sound H w) (hop : (logOf g w.commits)[(w.skv g r).commitedId]? = some op) :
    Sound H (w.apply g r op) := by
  have hrep : ReplicaSound w.commits g { w.replica g r with skv := (w.skv g r).next op } :=
    ⟨(h.replica g r).skv.next hop, (h.replica g r).saved⟩
  have hskv := h.setReplica hrep r
  exact ⟨hskv.lawful, hskv.group, hskv.pull, hskv.call⟩

theorem Sound.commit (h : Sound H w) (hg : g ≠ 0) {j : Nat}
    (hop : (w.groups g).proposals[j]? = some op) : Sound H (w.commit g j op) := by
  have hlaw : Lawful H (w.commits ++ [(g, op)]) :=
    h.lawful.concat hg ((h.group g).proposed hg op (List.mem_of_getElem? hop))
  have hgroups : ∀ g', GroupSound H (w.commits ++ [(g, op)]) g' (w.groups g') :=
    fun g' => (h.group g').concat hlaw
  refine ⟨hlaw, ?_, h.pull, h.call⟩
  refine (Function.forall_update_iff w.groups fun g' => GroupSound H (w.commits ++ [(g, op)]) g').mpr
    ⟨⟨fun hg' op' hop' => ?_, (hgroups g).replica, (hgroups g).snapshot⟩, fun g' _ => hgroups g'⟩
  exact (hgroups g).proposed hg' op' (List.mem_of_mem_eraseIdx hop')

/-- A replica at the end of its group's log can apply what is committed next. -/
theorem commit_entry {j : Nat} (hlast : (w.skv g r).commitedId = (logOf g w.commits).length) :
    (logOf g (w.commit g j op).commits)[((w.commit g j op).skv g r).commitedId]? = some op := by
  have hskv : (w.commit g j op).skv g r = w.skv g r := by
    simp [World.skv, World.replica, World.commit, World.setGroup]
  rw [hskv, hlast]
  show (logOf g (w.commits ++ [(g, op)]))[(logOf g w.commits).length]? = some op
  rw [logOf_append, show logOf g [(g, op)] = [op] by simp [logOf]]
  exact List.getElem?_concat_length

theorem Sound.pullStep (h : Sound H w) (g : Int) (r : Nat) : Sound H (w.pull g r) := by
  unfold World.pull
  split
  · rename_i op hop
    exact h.propose fun _ => (h.replica g r).skv.first_lawful h.lawful hop
  · rename_i pulls hpulls
    refine ⟨h.lawful, h.group, fun pull hpull => ?_, h.call⟩
    rcases List.mem_append.mp hpull with hold | hnew
    · exact h.pull pull hold
    · exact (h.replica g r).skv.pull_owner h.lawful hpulls pull hnew

theorem Sound.restart (h : Sound H w) (g : Int) (r : Nat) : Sound H (w.restart g r) := by
  have hrep : ReplicaSound w.commits g
      { skv := startServer g (w.replica g r).persisted
        persisted := (w.replica g r).persisted } := by
    refine ⟨?_, (h.replica g r).saved⟩
    cases hp : (w.replica g r).persisted with
    | none => exact IsReplay.start _ g
    | some data => exact ((h.replica g r).saved data hp).readSnapshot rfl
  have hset := h.setReplica hrep r
  refine ⟨hset.lawful, hset.group, hset.pull, fun call hcall => ?_⟩
  obtain ⟨call', hmem, rfl⟩ := List.mem_map.mp hcall
  have := h.call call' hmem
  split <;> exact this

theorem Sound.stepped (h : Sound H w) (hstep : Stepped H w w') : Sound H w' := by
  cases hstep with
  | invoke => exact ⟨h.lawful, h.group, h.pull, h.call⟩
  | @attempt c request g r =>
    refine ⟨h.lawful, h.group, h.pull, fun call hcall => ?_⟩
    rcases List.mem_append.mp hcall with hold | hnew
    · exact h.call call hold
    · rw [List.mem_singleton.mp hnew]
      cases request <;> rfl
  | enter hcall => exact h.enter hcall _ _
  | receive hcall => exact (h.setChan _ _).advance hcall _
  | timeout hcall => exact (h.setChan _ _).advance hcall _
  | fail => exact ⟨h.lawful, h.group, h.pull, h.call⟩
  | finish => exact ⟨h.lawful, h.group, h.pull, h.call⟩
  | @commit g r j op hg hlast hop =>
    exact (h.commit hg hop).apply (commit_entry hlast)
  | apply hop => exact h.apply hop
  | updateConfig hcfg => exact h.propose fun _ => (h.replica _ _).skv.config_lawful h.lawful hcfg
  | pull => exact h.pullStep _ _
  | shardDock hpull hop =>
    exact h.propose fun _ =>
      (h.replica _ _).skv.shardDock_lawful h.lawful (h.pull _ hpull) hop
  | sayHello =>
    refine h.setReplica ?_ _
    exact ⟨(h.replica _ _).skv, (h.replica _ _).saved⟩
  | hello =>
    refine h.setReplica ?_ _
    exact ⟨(h.replica _ _).skv, (h.replica _ _).saved⟩
  | clean =>
    refine h.setReplica ?_ _
    exact ⟨(h.replica _ _).skv.heard _ _ _, (h.replica _ _).saved⟩
  | @snapshot g r =>
    have hskv := (h.replica g r).skv
    have hrep : ReplicaSound w.commits g
        { w.replica g r with persisted := some (w.skv g r) } :=
      ⟨hskv, fun data hd => Option.some.inj hd ▸ hskv⟩
    have hset := (h.group g).setReplica hrep r
    refine h.setGroup ⟨hset.proposed, hset.replica, fun data hd => ?_⟩
    rcases List.mem_append.mp hd with hold | hnew
    · exact (h.group g).snapshot data hold
    · rw [List.mem_singleton.mp hnew]
      exact hskv
  | @install g r data hdata =>
    have hsnap := (h.group g).snapshot data hdata
    exact h.setReplica
      ⟨(h.replica g r).skv.applySnapshot hsnap _, fun data' hd => Option.some.inj hd ▸ hsnap⟩ r
  | restart => exact h.restart _ _

end Steps

/-- **The logs of a run are lawful, and every replica follows its group's log.** -/
theorem sound_of_reach {ok : World → Action → Prop} (h : (service H).Reach ok w) : Sound H w :=
  h.invariant (Sound.initial H) fun _ _ _ _ hsound _ hstep => hsound.stepped (step_cases hstep)

end RaftLabs.ShardKV
