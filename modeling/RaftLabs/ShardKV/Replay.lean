import Mathlib.Data.Nat.Basic
import Mathlib.Order.Basic
import RaftLabs.ShardKV.Service

/-! What applying a group's log computes.

The state of a group is a replay of its log. A client's command leaves the configuration, the
shards and the docks alone; a SHARDS entry adds shards of the current configuration; a CONFIG
entry does nothing, or advances the group, which then has all shards of the configuration it
leaves, keeps what stays and puts the rest into the dock of the new one. -/
namespace RaftLabs.ShardKV
open Lib ShardCtrler

/-- One command applied after all before it. -/
def next (skv : ShardKV) (op : Op) : ShardKV := skv.applyCommand op (skv.commitedId + 1)

def replayFrom (skv : ShardKV) (log : List Op) : ShardKV := log.foldl next skv

/-- The state of group `g` after applying a log. -/
def replay (g : Int) (log : List Op) : ShardKV := replayFrom (startServer g none) log

/-- The state of a group after all it has committed. -/
def groupAt (commits : List (Int × Op)) (g : Int) : ShardKV := replay g (logOf g commits)

/-! ### Logs -/

theorem replayFrom_append (skv : ShardKV) (l m : List Op) :
    replayFrom skv (l ++ m) = replayFrom (replayFrom skv l) m := List.foldl_append

theorem replay_concat (g : Int) (l : List Op) (op : Op) :
    replay g (l ++ [op]) = (replay g l).next op := by
  rw [replay, replayFrom_append]
  rfl

theorem logOf_append (g : Int) (l m : List (Int × Op)) :
    logOf g (l ++ m) = logOf g l ++ logOf g m := by
  rw [logOf, List.filter_append, List.map_append]
  rfl

theorem groupAt_self (commits : List (Int × Op)) (g : Int) (op : Op) :
    groupAt (commits ++ [(g, op)]) g = (groupAt commits g).next op := by
  rw [groupAt, logOf_append, show logOf g [(g, op)] = [op] by simp [logOf], replay_concat]
  rfl

theorem groupAt_ne (commits : List (Int × Op)) {g g' : Int} (op : Op) (h : g' ≠ g) :
    groupAt (commits ++ [(g, op)]) g' = groupAt commits g' := by
  rw [groupAt, logOf_append, show logOf g' [(g, op)] = [] by simp [logOf, Ne.symm h],
    List.append_nil]
  rfl

/-! ### What a command can do -/

section Next
variable {skv : ShardKV}

theorem isMigrateFinished_iff : skv.isMigrateFinished = true ↔
    ∀ s, skv.curConfig.shards s = skv.gid → skv.shards s = true := by
  rw [isMigrateFinished, List.isEmpty_iff, unFinishedShards, List.filter_eq_nil_iff]
  simp

/-- A configuration takes effect. -/
def Advances (skv : ShardKV) (cfg : Config) : Prop :=
  skv.curConfig.num < cfg.num ∧ skv.isMigrateFinished = true

/-- The server in a new configuration. -/
def advanced (skv : ShardKV) (cfg : Config) : ShardKV :=
  { skv with
    commitedId := skv.commitedId + 1
    config2ClientInfo := Function.update skv.config2ClientInfo cfg.num skv.clientInfo
    outShardsDock := Function.update skv.outShardsDock cfg.num (some (skv.makeOutShards cfg))
    shards := skv.keepShards cfg
    shardKVMap := fun key =>
      if skv.keepShards cfg (key2shard key) then skv.shardKVMap key else none
    lastConfig := skv.curConfig
    curConfig := cfg }

theorem next_config_of_advances {cfg : Config} (h : Advances skv cfg) :
    skv.next (.config cfg) = advanced skv cfg := by
  simp only [next, applyCommand, applyOp, doUpdateConfig, if_neg (Nat.not_le.mpr h.1), h.2]
  simp [advanced]

theorem next_config_of_not_advances {cfg : Config} (h : ¬ Advances skv cfg) :
    skv.next (.config cfg) = { skv with commitedId := skv.commitedId + 1 } := by
  have hsame : skv.doUpdateConfig cfg = skv := by
    unfold doUpdateConfig
    split
    · rfl
    · rename_i hnum
      rw [if_pos]
      simpa using fun hfin => h ⟨Nat.not_le.mp hnum, hfin⟩
  simp [next, applyCommand, applyOp, hsame]

/-- What neither a client's command nor a SHARDS entry touches. -/
structure SameConfig (skv skv' : ShardKV) : Prop where
  gid : skv'.gid = skv.gid
  curConfig : skv'.curConfig = skv.curConfig
  lastConfig : skv'.lastConfig = skv.lastConfig
  outShardsDock : skv'.outShardsDock = skv.outShardsDock
  config2ClientInfo : skv'.config2ClientInfo = skv.config2ClientInfo

theorem SameConfig.trans {a b c : ShardKV} (h : SameConfig a b) (h' : SameConfig b c) :
    SameConfig a c where
  gid := h'.gid.trans h.gid
  curConfig := h'.curConfig.trans h.curConfig
  lastConfig := h'.lastConfig.trans h.lastConfig
  outShardsDock := h'.outShardsDock.trans h.outShardsDock
  config2ClientInfo := h'.config2ClientInfo.trans h.config2ClientInfo

theorem next_config_sameConfig {cfg : Config} (h : ¬ Advances skv cfg) :
    SameConfig skv (skv.next (.config cfg)) := by
  rw [next_config_of_not_advances h]
  exact ⟨rfl, rfl, rfl, rfl, rfl⟩

theorem next_client (skv : ShardKV) (args : Args) :
    SameConfig skv (skv.next (.client args)) ∧
      (skv.next (.client args)).shards = skv.shards := by
  unfold next applyCommand applyOp
  dsimp only
  split <;> exact ⟨⟨rfl, rfl, rfl, rfl, rfl⟩, rfl⟩

theorem opErr_eq_ok {s : Shard} : skv.opErr s = .ok ↔
    skv.curConfig.shards s = skv.gid ∧ skv.shards s = true := by
  unfold opErr
  by_cases hgid : skv.curConfig.shards s = skv.gid
  · cases hs : skv.shards s <;> simp [hgid]
  · simp [hgid]

/-- The client's operation is new and its group has the shard. -/
def Executes (skv : ShardKV) (args : Args) : Prop :=
  skv.clientInfo.isNew args.clientId args.reqNo = true ∧ skv.opErr args.shardId = .ok

instance (skv : ShardKV) (args : Args) : Decidable (Executes skv args) :=
  inferInstanceAs (Decidable (_ ∧ _))

theorem next_client_shardKVMap (skv : ShardKV) (args : Args) :
    (skv.next (.client args)).shardKVMap =
      if Executes skv args then write skv.shardKVMap args else skv.shardKVMap := by
  unfold next applyCommand applyOp Executes
  by_cases hnew : skv.clientInfo.isNew args.clientId args.reqNo = true
  · simp [hnew, doOperation]
  · simp [hnew]

theorem write_of_ne {kvMap : String → Option String} {args : Args} {key : String}
    (h : key ≠ args.key) : write kvMap args key = kvMap key := by
  cases args with
  | get args => rfl
  | putAppend args => cases hop : args.op <;> simp only [write, hop] <;>
      exact Function.update_of_ne h _ _

theorem acceptShard_sameConfig (skv : ShardKV) (shift : ShiftShard) :
    SameConfig skv (skv.acceptShard shift) := by
  unfold acceptShard
  split <;> exact ⟨rfl, rfl, rfl, rfl, rfl⟩

theorem foldl_acceptShard_sameConfig (skv : ShardKV) (shifts : List ShiftShard) :
    SameConfig skv (shifts.foldl acceptShard skv) := by
  induction shifts generalizing skv with
  | nil => exact ⟨rfl, rfl, rfl, rfl, rfl⟩
  | cons shift rest ih => exact (acceptShard_sameConfig skv shift).trans (ih _)

theorem foldl_acceptShard_clientInfo (skv : ShardKV) (shifts : List ShiftShard) :
    (shifts.foldl acceptShard skv).clientInfo = skv.clientInfo := by
  induction shifts generalizing skv with
  | nil => rfl
  | cons shift rest ih =>
    refine (ih (skv.acceptShard shift)).trans ?_
    unfold acceptShard
    split <;> rfl

theorem acceptShard_shards {s : Shard} (hs : skv.shards s = true) (shift : ShiftShard) :
    (skv.acceptShard shift).shards s = true := by
  unfold acceptShard
  split
  · by_cases heq : s = shift.shardId <;> simp [heq, hs]
  · exact hs

/-- No entry but a configuration takes a shard away. -/
theorem next_shards_shards {s : Shard} (hs : skv.shards s = true) (shifts : List ShiftShard)
    (info : ClientInfo) : (skv.next (.shards shifts info)).shards s = true := by
  show (shifts.foldl acceptShard skv).shards s = true
  induction shifts generalizing skv with
  | nil => exact hs
  | cons shift rest ih => exact ih (acceptShard_shards hs shift)

theorem next_shards_sameConfig (skv : ShardKV) (shifts : List ShiftShard) (info : ClientInfo) :
    SameConfig skv (skv.next (.shards shifts info)) := by
  obtain ⟨hg, hc, hl, hd, hi⟩ := foldl_acceptShard_sameConfig skv shifts
  exact ⟨hg, hc, hl, hd, hi⟩

theorem accepts_iff {shift : ShiftShard} : skv.accepts shift = true ↔
    shift.configNum = skv.curConfig.num ∧ skv.curConfig.shards shift.shardId = skv.gid ∧
      skv.shards shift.shardId = false := by
  simp [accepts]

/-- The keys of a shard that is shipped belong to it. -/
def ShiftShard.Proper (shift : ShiftShard) : Prop :=
  ∀ key v, shift.kvMap key = some v → key2shard key = shift.shardId

/-- What a SHARDS entry does to shard `s`: nothing, or it installs one of its shards. -/
theorem foldl_acceptShard_cases {shifts : List ShiftShard}
    (hproper : ∀ shift ∈ shifts, shift.Proper) (skv : ShardKV) (s : Shard) :
    ((shifts.foldl acceptShard skv).shards s = skv.shards s ∧
      ∀ key, key2shard key = s →
        (shifts.foldl acceptShard skv).shardKVMap key = skv.shardKVMap key) ∨
    (skv.shards s = false ∧ (shifts.foldl acceptShard skv).shards s = true ∧
      ∃ shift ∈ shifts, shift.configNum = skv.curConfig.num ∧ shift.shardId = s ∧
        skv.curConfig.shards s = skv.gid ∧ ∀ key, key2shard key = s →
          (shifts.foldl acceptShard skv).shardKVMap key =
            (shift.kvMap key).or (skv.shardKVMap key)) := by
  induction shifts generalizing skv with
  | nil => exact .inl ⟨rfl, fun _ _ => rfl⟩
  | cons shift rest ih =>
    have hrest := fun sh hsh => hproper sh (List.mem_cons_of_mem _ hsh)
    have hcfg := acceptShard_sameConfig skv shift
    by_cases hacc : skv.accepts shift = true
    · obtain ⟨hnum, hgid, hfree⟩ := accepts_iff.mp hacc
      have hstep : skv.acceptShard shift =
          { skv with
            shardKVMap := fun key => (shift.kvMap key).or (skv.shardKVMap key)
            shards := Function.update skv.shards shift.shardId true } := by
        rw [acceptShard, if_pos hacc]
      by_cases hs : shift.shardId = s
      · -- the shard is installed here, and the rest of the entry leaves it alone
        subst hs
        have hset : (skv.acceptShard shift).shards shift.shardId = true := by
          rw [hstep]
          exact Function.update_self _ _ _
        rcases ih hrest (skv.acceptShard shift) with ⟨hsh, hkv⟩ | ⟨hno, -⟩
        · refine .inr ⟨hfree, hsh.trans hset, shift, List.mem_cons_self, hnum, rfl, hgid, ?_⟩
          intro key hkey
          rw [List.foldl_cons, hkv key hkey, hstep]
        · rw [hset] at hno
          cases hno
      · have hsame : (skv.acceptShard shift).shards s = skv.shards s := by
          rw [hstep]
          exact Function.update_of_ne (Ne.symm hs) _ _
        have hkvsame : ∀ key, key2shard key = s →
            (skv.acceptShard shift).shardKVMap key = skv.shardKVMap key := by
          intro key hkey
          rw [hstep]
          dsimp only
          cases hk : shift.kvMap key with
          | none => rfl
          | some v => exact absurd ((hproper shift List.mem_cons_self key v hk).symm.trans hkey) hs
        rcases ih hrest (skv.acceptShard shift) with ⟨hsh, hkv⟩ | ⟨hno, hyes, sh, hsh, h1, h2, h3, h4⟩
        · exact .inl ⟨hsh.trans hsame, fun key hkey => (hkv key hkey).trans (hkvsame key hkey)⟩
        · refine .inr ⟨hsame.symm.trans hno, hyes, sh, List.mem_cons_of_mem _ hsh, ?_, h2, ?_, ?_⟩
          · rw [h1, hcfg.curConfig]
          · rw [← hcfg.curConfig, h3, hcfg.gid]
          · intro key hkey
            rw [List.foldl_cons, h4 key hkey, hkvsame key hkey]
    · have hstep : skv.acceptShard shift = skv := by rw [acceptShard, if_neg hacc]
      rw [List.foldl_cons, hstep]
      rcases ih hrest skv with h | ⟨hno, hyes, sh, hsh, h⟩
      · exact .inl h
      · exact .inr ⟨hno, hyes, sh, List.mem_cons_of_mem _ hsh, h⟩

end Next

/-! ### The gid and the number of commands -/

theorem gid_next (skv : ShardKV) (op : Op) : (skv.next op).gid = skv.gid := by
  cases op with
  | client args => exact (next_client skv args).1.gid
  | config cfg =>
    by_cases h : Advances skv cfg
    · rw [next_config_of_advances h]
      rfl
    · exact (next_config_sameConfig h).gid
  | shards shifts info => exact (next_shards_sameConfig skv shifts info).gid

theorem gid_replayFrom (skv : ShardKV) (log : List Op) : (replayFrom skv log).gid = skv.gid := by
  induction log generalizing skv with
  | nil => rfl
  | cons op rest ih => exact (ih (skv.next op)).trans (gid_next skv op)

theorem gid_replay (g : Int) (log : List Op) : (replay g log).gid = g := gid_replayFrom _ log

theorem gid_groupAt (commits : List (Int × Op)) (g : Int) : (groupAt commits g).gid = g :=
  gid_replay g _

theorem commitedId_next (skv : ShardKV) (op : Op) :
    (skv.next op).commitedId = skv.commitedId + 1 :=
  Nat.max_eq_right (Nat.le_succ _)

theorem commitedId_replayFrom (skv : ShardKV) (log : List Op) :
    (replayFrom skv log).commitedId = skv.commitedId + log.length := by
  induction log generalizing skv with
  | nil => rfl
  | cons op rest ih =>
    refine (ih (skv.next op)).trans ?_
    rw [commitedId_next, List.length_cons]
    omega

theorem commitedId_replay (g : Int) (log : List Op) : (replay g log).commitedId = log.length :=
  (commitedId_replayFrom _ log).trans (Nat.zero_add _)

end RaftLabs.ShardKV
