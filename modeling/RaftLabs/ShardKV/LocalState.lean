import RaftLabs.ShardKV.ClientTable
import RaftLabs.ShardKV.Replay

/-! What holds of one server's state, whatever its log.

The entries of the log may come in any order, be out of date or be repeated. All that is asked of
them is that the keys they carry belong to the shards they name. Then a server has only shards
that its configuration gives to its group, pairs only of shards that it has, and in each dock
what the dock is labelled with. So the two filters of `doUpdateConfig`, one for the dock and one
for what stays, miss no pair and take none twice. -/
namespace RaftLabs.ShardKV
open Lib ShardCtrler

variable {skv skv' data : ShardKV} {gid : Int} {ok : Op → Prop} {op : Op}

/-! ### The states of a server -/

/-- The keys of the entry belong to the shards that it names. -/
def Op.Fits : Op → Prop
  | .client args => args.shardId = key2shard args.key
  | .config _ => True
  | .shards shiftShards _ => ∀ shift ∈ shiftShards, shift.Proper

/-- All requests of the entry are numbered from 1. -/
def Op.Numbered : Op → Prop
  | .client args => 0 < args.reqNo
  | .config _ => True
  | .shards _ clientInfo => clientInfo.Numbered

/-- The states of the servers of group `gid` that apply entries satisfying `ok`: `applyLog` applies
a command or reads the snapshot of a server, a server starts again from such a snapshot, and a
round of `sayHello` ends. -/
inductive Reached (gid : Int) (ok : Op → Prop) : ShardKV → Prop where
  | start : Reached gid ok (startServer gid none)
  | command {skv : ShardKV} {op : Op} (h : Reached gid ok skv) (hop : ok op) (commandIndex : Nat) :
      Reached gid ok (skv.applyCommand op commandIndex)
  | snapshot {skv data : ShardKV} (h : Reached gid ok skv) (hdata : Reached gid ok data)
      (snapshotIndex : Nat) : Reached gid ok (skv.applySnapshot snapshotIndex data)
  | restart {data : ShardKV} (hdata : Reached gid ok data) :
      Reached gid ok (startServer gid (some data))
  | heard {skv : ShardKV} (h : Reached gid ok skv) (merge order : RangeOrder Int)
      (gid2ConfigNum : GoMap Int Nat) : Reached gid ok (skv.heard merge order gid2ConfigNum)

/-- A server of the group takes over a snapshot as it is. -/
theorem readSnapshot_of_gid (hgid : data.gid = skv.gid) : skv.readSnapshot (some data) = data := by
  rw [ShardKV.readSnapshot, ← hgid]

namespace Reached

theorem gid_eq (h : Reached gid ok skv) : skv.gid = gid := by
  induction h with
  | start => rfl
  | @command skv op _ _ _ ih => exact (gid_next skv op).trans ih
  | snapshot _ _ _ ih _ =>
    unfold applySnapshot
    split <;> exact ih
  | restart _ _ => rfl
  | heard _ _ _ _ ih =>
    unfold ShardKV.heard
    dsimp only
    split <;> exact ih

/-- What a fresh server has, a command keeps and a round of `sayHello` keeps, every server has:
snapshots are states of servers. -/
theorem invariant {P : ShardKV → Prop} (hstart : P (startServer gid none))
    (hcommand : ∀ skv op commandIndex, P skv → ok op → P (skv.applyCommand op commandIndex))
    (hheard : ∀ skv merge order nums, P skv → P (skv.heard merge order nums))
    (h : Reached gid ok skv) : P skv := by
  induction h with
  | start => exact hstart
  | command _ hop commandIndex ih => exact hcommand _ _ commandIndex ih hop
  | snapshot h hdata _ ih ihdata =>
    unfold applySnapshot
    split
    · rwa [readSnapshot_of_gid (hdata.gid_eq.trans h.gid_eq.symm)]
    · exact ih
  | restart hdata ihdata => rwa [startServer, readSnapshot_of_gid hdata.gid_eq]
  | heard _ merge order nums ih => exact hheard _ merge order nums ih

theorem mono {ok' : Op → Prop} (hok : ∀ op, ok op → ok' op) (h : Reached gid ok skv) :
    Reached gid ok' skv :=
  h.invariant .start (fun _ _ index ih hop => ih.command (hok _ hop) index)
    fun _ merge order nums ih => ih.heard merge order nums

theorem replayFrom {log : List Op} (h : Reached gid ok skv) (hlog : ∀ op ∈ log, ok op) :
    Reached gid ok (replayFrom skv log) := by
  induction log generalizing skv with
  | nil => exact h
  | cons op rest ih =>
    exact ih (h.command (hlog op List.mem_cons_self) _)
      fun op' hop' => hlog op' (List.mem_cons_of_mem _ hop')

end Reached

theorem reached_replay {log : List Op} (hlog : ∀ op ∈ log, ok op) :
    Reached gid ok (replay gid log) :=
  Reached.start.replayFrom hlog

/-! ### Shards, pairs and docks -/

structure Consistent (skv : ShardKV) : Prop where
  mine : ∀ s, skv.shards s = true → skv.curConfig.shards s = skv.gid
  keys : ∀ key v, skv.shardKVMap key = some v → skv.shards (key2shard key) = true
  shift : ∀ n dock s shift, skv.outShardsDock n = some dock → dock s = some shift →
    shift.configNum = n ∧ shift.shardId = s ∧ shift.Proper

/-- What a client's operation can write: its key, if the group has the shard of it. -/
theorem next_client_write (skv : ShardKV) (args : Args) {key : String} {v : String}
    (h : (skv.next (.client args)).shardKVMap key = some v) :
    skv.shardKVMap key = some v ∨ (key = args.key ∧ skv.shards args.shardId = true) := by
  rw [next_client_shardKVMap] at h
  split at h
  · rename_i hexec
    by_cases hkey : key = args.key
    · exact .inr ⟨hkey, (opErr_eq_ok.mp hexec.2).2⟩
    · rw [write_of_ne hkey] at h
      exact .inl h
  · exact .inl h

theorem keepShards_iff {cfg : Config} {s : Shard} : skv.keepShards cfg s = true ↔
    skv.shards s = true ∧ cfg.shards s = skv.gid := by
  rw [keepShards, Bool.and_eq_true, beq_iff_eq, eq_comm (a := skv.gid)]

theorem outShards_iff {cfg : Config} {s : Shard} : skv.outShards cfg s = true ↔
    skv.shards s = true ∧ cfg.shards s ≠ skv.gid := by
  rw [outShards, Bool.and_eq_true, bne_iff_ne, ne_comm]

theorem advanced_shardKVMap {cfg : Config} {key v : String} :
    (advanced skv cfg).shardKVMap key = some v ↔
      skv.keepShards cfg (key2shard key) = true ∧ skv.shardKVMap key = some v := by
  show (if skv.keepShards cfg (key2shard key) then skv.shardKVMap key else none) = some v ↔ _
  rw [Option.ite_none_right_eq_some]

theorem makeOutShards_eq_some {cfg : Config} {s : Shard} {shift : ShiftShard} :
    skv.makeOutShards cfg s = some shift ↔ skv.outShards cfg s = true ∧
      { configNum := cfg.num
        shardId := s
        kvMap := fun key => if key2shard key = s then skv.shardKVMap key else none } = shift := by
  rw [makeOutShards, Option.ite_none_right_eq_some, Option.some.injEq]

namespace Consistent

theorem start (gid : Int) : Consistent (startServer gid none) where
  mine _ h := nomatch h
  keys _ _ h := nomatch h
  shift _ _ _ _ h := nomatch h

theorem client (h : Consistent skv) {args : Args} (hargs : args.shardId = key2shard args.key) :
    Consistent (skv.next (.client args)) := by
  obtain ⟨hc, hs⟩ := next_client skv args
  constructor
  case mine =>
    rw [hs, hc.curConfig, hc.gid]
    exact h.mine
  case keys =>
    intro key v hv
    rw [hs]
    rcases next_client_write skv args hv with hv | ⟨rfl, hhas⟩
    · exact h.keys key v hv
    · rwa [← hargs]
  case shift =>
    rw [hc.outShardsDock]
    exact h.shift

theorem shards (h : Consistent skv) {shifts : List ShiftShard}
    (hproper : ∀ shift ∈ shifts, shift.Proper) (info : ClientInfo) :
    Consistent (skv.next (.shards shifts info)) := by
  have hc := next_shards_sameConfig skv shifts info
  have hcases := foldl_acceptShard_cases hproper skv
  constructor
  case mine =>
    intro s hs
    rw [hc.curConfig, hc.gid]
    rcases hcases s with ⟨heq, -⟩ | ⟨-, -, shift, -, -, -, hgid, -⟩
    · exact h.mine s (heq.symm.trans hs)
    · exact hgid
  case keys =>
    intro key v hv
    rcases hcases (key2shard key) with ⟨heq, hkv⟩ | ⟨-, hset, -⟩
    · exact heq.trans (h.keys key v ((hkv key rfl).symm.trans hv))
    · exact hset
  case shift =>
    rw [hc.outShardsDock]
    exact h.shift

theorem advanced (h : Consistent skv) (cfg : Config) : Consistent (advanced skv cfg) where
  mine _ hs := (keepShards_iff.mp hs).2
  keys _ _ hv := (advanced_shardKVMap.mp hv).1
  shift n dock s shift hn hs := by
    by_cases hnum : n = cfg.num
    · subst hnum
      have hdock : skv.makeOutShards cfg = dock := by simpa [ShardKV.advanced] using hn
      rw [← hdock] at hs
      obtain ⟨-, rfl⟩ := makeOutShards_eq_some.mp hs
      refine ⟨rfl, rfl, fun key v hv => ?_⟩
      by_contra hno
      simp [hno] at hv
    · have hold : skv.outShardsDock n = some dock := by
        simpa [ShardKV.advanced, Function.update_of_ne hnum] using hn
      exact h.shift n dock s shift hold hs

theorem next (h : Consistent skv) (hop : op.Fits) : Consistent (skv.next op) := by
  cases op with
  | client args => exact h.client hop
  | config cfg =>
    by_cases hadv : Advances skv cfg
    · rw [next_config_of_advances hadv]
      exact h.advanced cfg
    · rw [next_config_of_not_advances hadv]
      exact ⟨h.mine, h.keys, h.shift⟩
  | shards shifts info => exact h.shards hop info

theorem applyCommand (h : Consistent skv) (hop : op.Fits) (commandIndex : Nat) :
    Consistent (skv.applyCommand op commandIndex) :=
  ⟨(h.next hop).mine, (h.next hop).keys, (h.next hop).shift⟩

/-- `clean` takes whole docks away. -/
theorem heard (h : Consistent skv) (merge order : RangeOrder Int) (nums : GoMap Int Nat) :
    Consistent (skv.heard merge order nums) := by
  unfold ShardKV.heard
  dsimp only
  split
  · refine ⟨h.mine, h.keys, fun n dock s shift hn hs => h.shift n dock s shift ?_ hs⟩
    exact (Option.ite_none_left_eq_some.mp hn).2
  · exact ⟨h.mine, h.keys, h.shift⟩

end Consistent

theorem Reached.consistent (h : Reached gid Op.Fits skv) : Consistent skv :=
  h.invariant (.start gid) (fun _ _ index ih hop => ih.applyCommand hop index)
    fun _ merge order nums ih => ih.heard merge order nums

/-! ### The duplicate table -/

theorem next_client_clientInfo (skv : ShardKV) (args : Args) :
    (skv.next (.client args)).clientInfo =
      if skv.clientInfo.isNew args.clientId args.reqNo then
        skv.clientInfo.record args.clientId args.reqNo (skv.opErr args.shardId)
      else skv.clientInfo := by
  unfold next applyCommand applyOp
  dsimp only
  split <;> rfl

theorem next_shards_clientInfo (skv : ShardKV) (shifts : List ShiftShard) (info : ClientInfo) :
    (skv.next (.shards shifts info)).clientInfo = skv.clientInfo.merge info := by
  show ClientInfo.merge (shifts.foldl acceptShard skv).clientInfo info = _
  rw [foldl_acceptShard_clientInfo]

theorem next_config_clientInfo (skv : ShardKV) (cfg : Config) :
    (skv.next (.config cfg)).clientInfo = skv.clientInfo := by
  by_cases hadv : Advances skv cfg
  · rw [next_config_of_advances hadv]
    rfl
  · rw [next_config_of_not_advances hadv]

theorem sameClients_next (h : skv.clientInfo.SameClients) (hop : op.Numbered) :
    (skv.next op).clientInfo.SameClients := by
  cases op with
  | client args =>
    rw [next_client_clientInfo]
    split
    · exact h.record _ _ _
    · exact h
  | config cfg => rwa [next_config_clientInfo]
  | shards shifts info =>
    rw [next_shards_clientInfo]
    exact h.merge hop

theorem Reached.sameClients (h : Reached gid Op.Numbered skv) : skv.clientInfo.SameClients := by
  refine h.invariant (P := fun skv => skv.clientInfo.SameClients) (fun _ => rfl) ?_ ?_
  · intro skv op index ih hop
    exact sameClients_next ih hop
  · intro skv merge order nums ih
    unfold ShardKV.heard
    dsimp only
    split <;> exact ih

/-- **The local state of a server.** It has only shards that its configuration gives to its group
and pairs only of shards that it has, every dock holds what it is labelled with, and the two maps
of the duplicate table have the same clients. -/
theorem local_state (h : Reached gid (fun op => op.Fits ∧ op.Numbered) skv) :
    (∀ s, skv.shards s = true → skv.curConfig.shards s = gid) ∧
    (∀ key v, skv.shardKVMap key = some v → skv.shards (key2shard key) = true) ∧
    (∀ n dock s shift, skv.outShardsDock n = some dock → dock s = some shift →
      shift.configNum = n ∧ shift.shardId = s ∧
        ∀ key v, shift.kvMap key = some v → key2shard key = s) ∧
    ∀ clientId, (skv.clientInfo.completedReq clientId).isSome =
      (skv.clientInfo.completedResult clientId).isSome := by
  have hcons := (h.mono fun _ hop => hop.1).consistent
  refine ⟨?mine, hcons.keys, ?dock, (h.mono fun _ hop => hop.2).sameClients⟩
  case mine =>
    intro s hs
    rw [hcons.mine s hs, h.gid_eq]
  case dock =>
    intro n dock s shift hdock hs
    obtain ⟨hnum, rfl, hproper⟩ := hcons.shift n dock s shift hdock hs
    exact ⟨hnum, rfl, hproper⟩

/-- Group 1 gets all shards and two keys are written. Then all shards but that of `"d"` go to
group 2. -/
def handOver : List Op :=
  [.config { num := 1, shards := fun _ => 1 },
   .shards ((List.finRange nShards).map fun s =>
      { configNum := 1, shardId := s, kvMap := fun _ => none }) {},
   .client (.putAppend
      { key := "a", value := "x", op := .put, shardId := key2shard "a", clientId := 5, reqNo := 1 }),
   .client (.putAppend
      { key := "d", value := "y", op := .put, shardId := key2shard "d", clientId := 5, reqNo := 2 }),
   .config { num := 2, shards := fun s => if s = key2shard "d" then 1 else 2 }]

theorem handOver_fits : ∀ op ∈ handOver, op.Fits ∧ op.Numbered := by
  simp [handOver, Op.Fits, Op.Numbered, Args.shardId, Args.key, Args.reqNo, ShiftShard.Proper, ClientInfo.Numbered]

theorem local_state_handOver :
    (replay 1 handOver).shardKVMap "d" = some "y" ∧
    (replay 1 handOver).shards (key2shard "d") = true ∧
    (replay 1 handOver).curConfig.shards (key2shard "d") = 1 ∧
    ((replay 1 handOver).outShardsDock 2).isSome = true ∧
    ∀ clientId, ((replay 1 handOver).clientInfo.completedReq clientId).isSome =
      ((replay 1 handOver).clientInfo.completedResult clientId).isSome := by
  have hkey : (replay 1 handOver).shardKVMap "d" = some "y" := by decide +kernel
  have hreached : Reached 1 _ (replay 1 handOver) := reached_replay handOver_fits
  obtain ⟨hmine, hkeys, -, hclients⟩ := local_state hreached
  have hshard := hkeys "d" "y" hkey
  exact ⟨hkey, hshard, hmine _ hshard, by decide +kernel, hclients⟩

/-! ### A configuration takes effect -/

/-- Where a pair can be after a configuration took effect. -/
inductive Place where
  | map
  | dock (s : Shard)
deriving DecidableEq

/-- The pair is there; docks are those of configuration `configNum`. -/
def Holds (skv : ShardKV) (configNum : Nat) (key value : String) : Place → Prop
  | .map => skv.shardKVMap key = some value
  | .dock s => ∃ dock shift, skv.outShardsDock configNum = some dock ∧ dock s = some shift ∧
      shift.kvMap key = some value

/-- Where the pairs of a key belong: they stay with their shard, or leave with it. -/
def destination (gid : Int) (nextConfig : Config) (key : String) : Place :=
  if nextConfig.shards (key2shard key) = gid then .map else .dock (key2shard key)

theorem applyCommand_config_of_advances {cfg : Config} (h : Advances skv cfg) (commandIndex : Nat) :
    skv.applyCommand (.config cfg) commandIndex =
      { advanced skv cfg with commitedId := max skv.commitedId commandIndex } := by
  rw [← next_config_of_advances h]
  rfl

theorem applyCommand_config_of_not_advances {cfg : Config} (h : ¬ Advances skv cfg)
    (commandIndex : Nat) : skv.applyCommand (.config cfg) commandIndex =
      { skv with commitedId := max skv.commitedId commandIndex } := by
  show { skv.next (.config cfg) with commitedId := max skv.commitedId commandIndex } = _
  rw [next_config_of_not_advances h]

/-- The dock of the new configuration. -/
theorem advanced_outShardsDock (skv : ShardKV) (cfg : Config) :
    (advanced skv cfg).outShardsDock cfg.num = some (skv.makeOutShards cfg) :=
  Function.update_self _ _ _

theorem holds_dock_advanced {cfg : Config} {key v : String} {s : Shard} :
    Holds (advanced skv cfg) cfg.num key v (.dock s) ↔
      skv.outShards cfg s = true ∧ key2shard key = s ∧ skv.shardKVMap key = some v := by
  constructor
  · rintro ⟨dock, shift, hdock, hs, hv⟩
    rw [advanced_outShardsDock, Option.some.injEq] at hdock
    subst hdock
    obtain ⟨hout, rfl⟩ := makeOutShards_eq_some.mp hs
    exact ⟨hout, Option.ite_none_right_eq_some.mp hv⟩
  · rintro ⟨hout, hkey, hv⟩
    exact ⟨_, _, advanced_outShardsDock skv cfg, makeOutShards_eq_some.mpr ⟨hout, rfl⟩,
      Option.ite_none_right_eq_some.mpr ⟨hkey, hv⟩⟩

/-- Every pair goes to its destination, and nothing else is there. -/
theorem Consistent.holds_advanced (h : Consistent skv) (cfg : Config) (key v : String)
    (place : Place) : Holds (ShardKV.advanced skv cfg) cfg.num key v place ↔
      skv.shardKVMap key = some v ∧ place = destination skv.gid cfg key := by
  unfold destination
  cases place with
  | map =>
    refine advanced_shardKVMap.trans ?_
    rw [keepShards_iff]
    constructor
    · rintro ⟨⟨-, hstays⟩, hv⟩
      exact ⟨hv, (if_pos hstays).symm⟩
    · rintro ⟨hv, hplace⟩
      have hstays : cfg.shards (key2shard key) = skv.gid := by
        by_contra hleaves
        simp [hleaves] at hplace
      exact ⟨⟨h.keys key v hv, hstays⟩, hv⟩
  | dock s =>
    rw [holds_dock_advanced, outShards_iff]
    constructor
    · rintro ⟨⟨-, hleaves⟩, rfl, hv⟩
      exact ⟨hv, (if_neg hleaves).symm⟩
    · rintro ⟨hv, hplace⟩
      have hleaves : cfg.shards (key2shard key) ≠ skv.gid := by
        intro hstays
        simp [hstays] at hplace
      rw [if_neg hleaves, Place.dock.injEq] at hplace
      subst hplace
      exact ⟨⟨h.keys key v hv, hleaves⟩, rfl, hv⟩

/-- When the migration is finished, the server has exactly the shards of its group. -/
theorem Consistent.shards_iff (h : Consistent skv) (hfin : skv.isMigrateFinished = true)
    (s : Shard) : skv.shards s = true ↔ skv.curConfig.shards s = skv.gid :=
  ⟨h.mine s, isMigrateFinished_iff.mp hfin s⟩

/-- **A configuration change conserves data.** When a configuration takes effect, every pair is
in exactly one place, unchanged: in the map if its shard stays, else in the new dock under its
shard. No other pair is there, the dock has an entry for exactly the shards that leave, and the
duplicate table is saved as it is. An entry that does not take effect only counts. -/
theorem config_conserves (h : Reached gid Op.Fits skv) (nextConfig : Config)
    (commandIndex : Nat) :
    (Advances skv nextConfig →
      (∀ key value place,
        Holds (skv.applyCommand (.config nextConfig) commandIndex) nextConfig.num key value place ↔
          skv.shardKVMap key = some value ∧ place = destination gid nextConfig key) ∧
      (∃ dock, (skv.applyCommand (.config nextConfig) commandIndex).outShardsDock nextConfig.num =
          some dock ∧
        ∀ s, (dock s).isSome = true ↔
          skv.curConfig.shards s = gid ∧ nextConfig.shards s ≠ gid) ∧
      (skv.applyCommand (.config nextConfig) commandIndex).config2ClientInfo nextConfig.num =
        some skv.clientInfo) ∧
    (¬ Advances skv nextConfig → skv.applyCommand (.config nextConfig) commandIndex =
      { skv with commitedId := max skv.commitedId commandIndex }) := by
  have hcons := h.consistent
  have hgid := h.gid_eq
  refine ⟨fun hadv => ?_, fun hno => applyCommand_config_of_not_advances hno commandIndex⟩
  rw [applyCommand_config_of_advances hadv]
  refine ⟨?pairs, ⟨_, advanced_outShardsDock skv nextConfig, ?leaving⟩, ?table⟩
  case pairs =>
    intro key value place
    have hholds := hcons.holds_advanced nextConfig key value place
    rw [hgid] at hholds
    cases place with
    | map => exact hholds
    | dock s => exact hholds
  case leaving =>
    intro s
    have hout : skv.outShards nextConfig s = true ↔ _ := outShards_iff
    rw [hcons.shards_iff hadv.2 s, hgid] at hout
    rw [← hout, makeOutShards]
    split <;> simp [*]
  case table => exact Function.update_self _ _ _

/-- The last entry of `handOver` takes `"a"` to the dock and leaves `"d"` in the map. -/
theorem config_conserves_handOver :
    Advances (replay 1 (handOver.take 4))
      { num := 2, shards := fun s => if s = key2shard "d" then 1 else 2 } ∧
    Holds (replay 1 handOver) 2 "a" "x" (.dock (key2shard "a")) ∧
    Holds (replay 1 handOver) 2 "d" "y" .map := by
  have hadv : Advances (replay 1 (handOver.take 4))
      { num := 2, shards := fun s => if s = key2shard "d" then 1 else 2 } := by
    unfold Advances
    decide +kernel
  have hfits : ∀ op ∈ handOver.take 4, op.Fits := fun op hop =>
    (handOver_fits op (List.mem_of_mem_take hop)).1
  have hreached : Reached 1 _ (replay 1 (handOver.take 4)) := reached_replay hfits
  have hpairs := ((config_conserves hreached _ 5).1 hadv).1
  exact ⟨hadv, (hpairs "a" "x" _).mpr ⟨by decide +kernel, by decide +kernel⟩,
    (hpairs "d" "y" _).mpr ⟨by decide +kernel, by decide +kernel⟩⟩

end RaftLabs.ShardKV
