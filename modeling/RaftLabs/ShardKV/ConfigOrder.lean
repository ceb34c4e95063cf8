import RaftLabs.ShardKV.Ownership
import RaftLabs.ShardKV.Recovery

/-! The configurations of a group, one after the other.

`doUpdateConfig` only asks for a larger number. That no number is left out comes from the
proposals: a leader asks the controller for the configuration after its own, and its own is one
that the group has been in, so a proposal is at most one ahead of the group when it is made, and
of every later state of the group as well. A proposal that takes effect is ahead of the group at
that time, so it is exactly one ahead. -/
namespace RaftLabs.ShardKV
open Lib ShardCtrler

/-- The controller answers a query for the next configuration with this configuration, or with one
that is not newer; and a configuration gets into the log only as a proposal of `updateConfig`. -/
def Answered (H : ConfigHistory) (w : Recovery) : Recovery.Action → Prop
  | .updateConfig s _ next => H.config ((w.skv s).curConfig.num + 1) = some next ∨
      next.num ≤ (w.skv s).curConfig.num
  | .append (.config _) => False
  | _ => True

instance (H : ConfigHistory) (w : Recovery) : (a : Recovery.Action) → Decidable (Answered H w a)
  | .updateConfig _ _ _ => inferInstanceAs (Decidable (_ ∨ _))
  | .append (.config _) => isFalse id
  | .append (.client _) | .append (.shards _ _) | .commit _ | .command _ | .snapshot _
  | .install _ _ | .message _ _ | .restart _ | .heard _ _ _ _ => isTrue trivial

/-! ### Configurations in the log -/

/-- A configuration of the history that is at most one ahead of the server. -/
def OneAhead (H : ConfigHistory) (skv : ShardKV) : Op → Prop
  | .config cfg => H.config cfg.num = some cfg ∧ cfg.num ≤ skv.curConfig.num + 1
  | .client _ | .shards _ _ => True

/-- The server is in a configuration of the history and comes from the one before. -/
structure InHistory (H : ConfigHistory) (skv : ShardKV) : Prop where
  current : H.config skv.curConfig.num = some skv.curConfig
  previous : 1 ≤ skv.curConfig.num → H.config (skv.curConfig.num - 1) = some skv.lastConfig

section Log
variable {H : ConfigHistory} {skv skv' : ShardKV} {gid : Int} {log : List Op} {op : Op}

theorem OneAhead.mono (h : OneAhead H skv op) (hle : skv.curConfig.num ≤ skv'.curConfig.num) :
    OneAhead H skv' op := by
  cases op with
  | config cfg => exact ⟨h.1, h.2.trans (Nat.succ_le_succ hle)⟩
  | client _ | shards _ _ => trivial

theorem SameConfig.inHistory (h : SameConfig skv skv') (hskv : InHistory H skv) :
    InHistory H skv' := by
  obtain ⟨hcur, hprev⟩ := hskv
  rw [← h.curConfig] at hcur hprev
  rw [← h.lastConfig] at hprev
  exact ⟨hcur, hprev⟩

theorem curConfig_num_next_le (skv : ShardKV) (op : Op) :
    skv.curConfig.num ≤ (skv.next op).curConfig.num := by
  cases op with
  | client args => rw [(next_client skv args).1.curConfig]
  | shards shifts info => rw [(next_shards_sameConfig skv shifts info).curConfig]
  | config cfg =>
    by_cases hadv : Advances skv cfg
    · rw [next_config_of_advances hadv]
      exact hadv.1.le
    · rw [(next_config_sameConfig hadv).curConfig]

theorem curConfig_num_take_le (gid : Int) (log : List Op) (i : Nat) :
    (replay gid (log.take i)).curConfig.num ≤ (replay gid log).curConfig.num := by
  have hrest : ∀ (l : List Op) (skv : ShardKV),
      skv.curConfig.num ≤ (replayFrom skv l).curConfig.num := by
    intro l
    induction l with
    | nil => exact fun _ => Nat.le_refl _
    | cons op rest ih => exact fun skv => (curConfig_num_next_le skv op).trans (ih (skv.next op))
  conv_rhs => rw [← List.take_append_drop i log, replay, replayFrom_append]
  exact hrest _ _

/-- A configuration that takes effect is exactly one ahead. -/
theorem OneAhead.num_eq {cfg : Config} (h : OneAhead H skv (.config cfg)) (hadv : Advances skv cfg) :
    cfg.num = skv.curConfig.num + 1 :=
  Nat.le_antisymm h.2 hadv.1

theorem InHistory.next (h : InHistory H skv) (hop : OneAhead H skv op) :
    InHistory H (skv.next op) := by
  cases op with
  | client args => exact (next_client skv args).1.inHistory h
  | shards shifts info => exact (next_shards_sameConfig skv shifts info).inHistory h
  | config cfg =>
    by_cases hadv : Advances skv cfg
    · rw [next_config_of_advances hadv]
      refine ⟨hop.1, fun _ => ?_⟩
      show H.config (cfg.num - 1) = some skv.curConfig
      rw [hop.num_eq hadv]
      exact h.current
    · exact (next_config_sameConfig hadv).inHistory h

theorem inHistory_replay
    (hlog : ∀ i op, log[i]? = some op → OneAhead H (replay gid (log.take i)) op) {i : Nat}
    (hi : i ≤ log.length) : InHistory H (replay gid (log.take i)) := by
  induction i with
  | zero => exact ⟨H.zero, fun h => absurd h (Nat.not_succ_le_zero 0)⟩
  | succ i ih =>
    have hop := List.getElem?_eq_getElem (Nat.lt_of_succ_le hi)
    rw [List.take_add_one, hop, Option.toList_some, replay_concat]
    exact (ih (Nat.le_of_succ_le hi)).next (hlog i _ hop)

end Log

/-! ### Every run -/

/-- A leader's proposal is one ahead of the leader, so of the group at most. -/
theorem Recovery.Sound.oneAhead {H : ConfigHistory} {gid : Int} {w : Recovery}
    (hsound : w.Sound gid) {s : Nat} {isLeader : Bool}
    {next : Config} {op : Op}
    (hnext : H.config ((w.skv s).curConfig.num + 1) = some next ∨
      next.num ≤ (w.skv s).curConfig.num)
    (hop : (w.skv s).updateConfig isLeader next = some op) : OneAhead H (replay gid w.log) op := by
  unfold ShardKV.updateConfig at hop
  split at hop
  swap
  · cases hop
  · rename_i hguard
    cases hop
    have hconfig := hnext.resolve_right (Nat.not_le.mpr hguard.2.2)
    have hnum := H.num _ _ hconfig
    have hle := curConfig_num_take_le gid w.log (w.nodes s).delivered
    rw [← (hsound.nodes s).service.2.curConfig] at hle
    exact ⟨hnum.symm ▸ hconfig, hnum.le.trans (Nat.succ_le_succ hle)⟩

/-- All configurations in the log and all proposals are at most one ahead. -/
structure Recovery.Orderly (H : ConfigHistory) (gid : Int) (w : Recovery) : Prop where
  log : ∀ i op, w.log[i]? = some op → OneAhead H (replay gid (w.log.take i)) op
  proposals : ∀ op ∈ w.proposals, OneAhead H (replay gid w.log) op

namespace Recovery.Orderly
variable {H : ConfigHistory} {gid : Int} {w w' : Recovery}

theorem append (h : w.Orderly H gid) {op : Op} (hop : OneAhead H (replay gid w.log) op) :
    Recovery.Orderly H gid { w with log := w.log ++ [op] } where
  log i op' hi := by
    rcases Nat.lt_or_ge i w.log.length with hlt | hge
    · rw [List.getElem?_append_left hlt] at hi
      rw [List.take_append_of_le_length hlt.le]
      exact h.log i op' hi
    · obtain ⟨hlen, rfl⟩ : i = w.log.length ∧ op' = op := by
        rw [List.getElem?_append_right hge, List.getElem?_singleton] at hi
        split at hi
        · exact ⟨by omega, (Option.some.inj hi).symm⟩
        · cases hi
      rw [hlen, List.take_left]
      exact hop
  proposals op' hop' := by
    refine (h.proposals op' hop').mono ?_
    have hle := curConfig_num_take_le gid (w.log ++ [op]) w.log.length
    rwa [List.take_left] at hle

theorem step {a : Recovery.Action} (h : w.Orderly H gid) (hsound : w.Sound gid)
    (hok : Answered H w a) (hstep : (Recovery.system gid).step w a = some w') :
    w'.Orderly H gid := by
  cases a with
  | append op =>
    cases hstep
    refine h.append ?_
    cases op with
    | config cfg => exact hok.elim
    | client _ | shards _ _ => trivial
  | commit j =>
    obtain ⟨op, hop, rfl⟩ := Option.map_eq_some_iff.mp hstep
    exact h.append (h.proposals op (List.mem_of_getElem? hop))
  | updateConfig s isLeader next =>
    obtain ⟨op, hop, rfl⟩ := Option.map_eq_some_iff.mp hstep
    refine ⟨h.log, fun op' hop' => ?_⟩
    rcases List.mem_append.mp hop' with hold | hnew
    · exact h.proposals op' hold
    · rw [List.mem_singleton.mp hnew]
      exact hsound.oneAhead hok hop
  | command s =>
    obtain ⟨op, -, rfl⟩ := Option.map_eq_some_iff.mp hstep
    exact ⟨h.log, h.proposals⟩
  | install s j =>
    obtain ⟨snap, -, hif⟩ := Option.bind_eq_some_iff.mp hstep
    split at hif <;> cases hif
    exact ⟨h.log, h.proposals⟩
  | message s j =>
    obtain ⟨snap, -, rfl⟩ := Option.map_eq_some_iff.mp hstep
    exact ⟨h.log, h.proposals⟩
  | snapshot s | restart s | heard s merge order nums =>
    cases hstep
    exact ⟨h.log, h.proposals⟩

end Recovery.Orderly

theorem orderly_of_reach {H : ConfigHistory} {gid : Int} {w : Recovery}
    (h : (Recovery.system gid).Reach (Answered H) w) : w.Orderly H gid :=
  h.invariant ⟨nofun, nofun⟩ fun _ _ _ hreach horderly hok hstep =>
    horderly.step (recovery_sound hreach) hok hstep

/-- `doUpdateConfig` changes the server only when the configuration is newer and every shard of the
current one is there. -/
theorem advances_of_doUpdateConfig_ne {skv : ShardKV} {cfg : Config}
    (h : skv.doUpdateConfig cfg ≠ skv) : Advances skv cfg := by
  unfold doUpdateConfig at h
  split at h
  · exact absurd rfl h
  · split at h
    · exact absurd rfl h
    · rename_i hnum hfinished
      exact ⟨Nat.not_le.mp hnum, by simpa using hfinished⟩

/-- **Configurations advance one at a time.** In every run of a group, whoever leads and whenever
the controller answers: when a CONFIG entry takes effect at a server, its number is one above that of
the server's configuration, and the server has all shards that are assigned to the group; and the
last configuration of a server is the one before its current one in the controller's history. -/
theorem configs_one_by_one {H : ConfigHistory} {gid : Int} {w : Recovery}
    (h : (Recovery.system gid).Reach (Answered H) w) (s : Nat) :
    (∀ cfg, w.log[(w.nodes s).delivered]? = some (.config cfg) →
      (w.skv s).doUpdateConfig cfg ≠ w.skv s →
        cfg.num = (w.skv s).curConfig.num + 1 ∧
          ∀ shard, (w.skv s).curConfig.shards shard = gid → (w.skv s).shards shard = true) ∧
    (1 ≤ (w.skv s).curConfig.num →
      H.config ((w.skv s).curConfig.num - 1) = some (w.skv s).lastConfig) := by
  have horderly := orderly_of_reach h
  have hservice := ((recovery_sound h).nodes s).service
  have hcur : (w.skv s).curConfig = _ := hservice.2.curConfig
  have hlast : (w.skv s).lastConfig = _ := hservice.2.lastConfig
  constructor
  · intro cfg hcfg hne
    have hadv := advances_of_doUpdateConfig_ne hne
    have hahead : OneAhead H (w.skv s) (.config cfg) :=
      (horderly.log _ _ hcfg).mono (by rw [hcur])
    refine ⟨hahead.num_eq hadv, fun shard hshard => ?_⟩
    have hgid : (w.skv s).gid = gid := hservice.gid_eq
    exact isMigrateFinished_iff.mp hadv.2 shard (hshard.trans hgid.symm)
  · rw [hcur, hlast]
    exact (inHistory_replay horderly.log hservice.1).previous

/-! ### Two leaders -/

/-- Two servers that both think they lead propose the first configuration, and both proposals get
into the log; server 0 takes the shards over and proposes the second configuration, and the
proposals for the first one are repeated before and after it. -/
def twoLeaders : List Recovery.Action :=
  [.updateConfig 0 true (allOn 1 1), .updateConfig 1 true (allOn 1 1), .commit 0, .commit 1,
   .append (.shards (firstShards 1) {}), .command 0, .command 0, .command 0,
   .updateConfig 0 true (allOn 2 2), .commit 1, .commit 2, .commit 2, .commit 0, .command 0]

def Op.config? : Op → Option Config
  | .config cfg => some cfg
  | .client _ | .shards _ _ => none

theorem Op.eq_of_config? {op : Op} {cfg : Config} (h : op.config? = some cfg) : op = .config cfg := by
  cases op <;> cases h
  rfl

theorem twoLeaders_runs : (((Recovery.system 1).runWhere (Answered oneThenTwo) (Recovery.initial 1)
    twoLeaders).map fun w => decide ((w.skv 0).curConfig.num = 1 ∧
      (w.log[(w.nodes 0).delivered]?).bind Op.config? = some (allOn 2 2) ∧
      ((w.skv 0).doUpdateConfig (allOn 2 2)).curConfig.num = 2)) = some true := by
  decide +kernel

/-- The second configuration is about to take effect. -/
theorem configs_one_by_one_twoLeaders : ∃ w,
    (Recovery.system 1).Reach (Answered oneThenTwo) w ∧
      (w.skv 0).doUpdateConfig (allOn 2 2) ≠ w.skv 0 ∧
      (allOn 2 2).num = (w.skv 0).curConfig.num + 1 ∧
      oneThenTwo.config 0 = some (w.skv 0).lastConfig := by
  obtain ⟨w, hrun, hw⟩ := Option.map_eq_some_iff.mp twoLeaders_runs
  obtain ⟨hnum, hop, heffect⟩ := of_decide_eq_true hw
  obtain ⟨op, hop, hcfg⟩ := Option.bind_eq_some_iff.mp hop
  rw [Op.eq_of_config? hcfg] at hop
  have hne : (w.skv 0).doUpdateConfig (allOn 2 2) ≠ w.skv 0 := by
    intro heq
    rw [heq, hnum] at heffect
    cases heffect
  have hreach := System.reach_runWhere .init _ hrun
  obtain ⟨htakes, hlast⟩ := configs_one_by_one hreach 0
  rw [hnum] at hlast
  exact ⟨w, hreach, hne, (htakes _ hop hne).1, hlast (Nat.le_refl 1)⟩

end RaftLabs.ShardKV
