import RaftLabs.ShardKV.Ownership

/-! When garbage collection drops a dock.

`Hello` answers with a number above which a group has not finished, and these answers only
grow. So a group that is known with a number above `n` has installed all its shards of
configuration `n`. But `clean` takes the minimum over the groups that have answered so far: a
group that was never heard does not hold it back. -/
namespace RaftLabs.ShardKV
open Lib ShardCtrler

variable {H : ConfigHistory} {commits : List (Int × Op)} {skv : ShardKV} {g d : Int} {n : Nat}
variable {s : Shard} {nums : GoMap Int Nat} {w w' : World}

/-! ### What `Hello` says -/

theorem hello_next (skv : ShardKV) (op : Op) : skv.hello ≤ (skv.next op).hello := by
  have hsame : SameConfig skv (skv.next op) →
      (∀ s, skv.shards s = true → (skv.next op).shards s = true) →
      skv.hello ≤ (skv.next op).hello := by
    intro hc hs
    unfold hello
    rw [hc.curConfig]
    by_cases hfin : skv.isMigrateFinished = true
    · have hfin' : (skv.next op).isMigrateFinished = true := by
        refine isMigrateFinished_iff.mpr fun s hmine => hs s ?_
        rw [hc.curConfig, hc.gid] at hmine
        exact isMigrateFinished_iff.mp hfin s hmine
      rw [hfin, hfin']
    · rw [if_neg hfin]
      split <;> omega
  cases op with
  | client args =>
    refine hsame (next_client skv args).1 fun s hs => ?_
    rwa [(next_client skv args).2]
  | shards shifts info =>
    exact hsame (next_shards_sameConfig skv shifts info) fun s hs =>
      next_shards_shards hs shifts info
  | config cfg =>
    by_cases hadv : Advances skv cfg
    · rw [next_config_of_advances hadv]
      have hbefore : skv.hello = skv.curConfig.num + 1 := by rw [hello, if_pos hadv.2]
      have hafter : cfg.num ≤ (advanced skv cfg).hello := by
        unfold hello
        split
        · exact Nat.le_succ cfg.num
        · exact Nat.le_refl cfg.num
      have := hadv.1
      omega
    · refine hsame (next_config_sameConfig hadv) fun s hs => ?_
      rwa [next_config_of_not_advances hadv]

theorem Lawful.hello_take_le (h : Lawful H commits) (i : Nat) (d : Int) :
    (groupAt (commits.take i) d).hello ≤ (groupAt commits d).hello := by
  induction h with
  | nil => rw [List.take_nil]
  | @concat commits g op h hg hop ih =>
    rcases Nat.lt_or_ge commits.length i with hi | hi
    · rw [List.take_of_length_le (by simpa using Nat.succ_le_of_lt hi)]
    · rw [List.take_append_of_le_length hi]
      refine ih.trans ?_
      by_cases hgg : d = g
      · subst hgg
        rw [groupAt_self]
        exact hello_next _ op
      · rw [groupAt_ne _ _ hgg]

/-- A group that has not even configuration 1 is not behind. -/
theorem Lawful.hello_pos (h : Lawful H commits) (hd : d ≠ 0) : 0 < (groupAt commits d).hello := by
  unfold hello
  split
  · exact Nat.succ_pos _
  · rename_i hfin
    refine Nat.pos_of_ne_zero fun h0 => hfin (isMigrateFinished_iff.mpr fun s hmine => ?_)
    rw [← (h.held d).owner s, h0, H.owner_zero, gid_groupAt] at hmine
    exact absurd hmine.symm hd

/-- A group above `n` had each shard that configuration `n` gives it. -/
theorem Lawful.had_of_hello (h : Lawful H commits) (hn : n < (groupAt commits d).hello)
    (howner : H.owner n s = d) : Had H commits d n s := by
  refine ⟨howner, ?_⟩
  unfold hello at hn
  split at hn
  · rename_i hfin
    rcases Nat.lt_or_eq_of_le (Nat.le_of_lt_succ hn) with hlt | heq
    · exact .inl hlt
    · refine .inr ⟨heq, isMigrateFinished_iff.mp hfin s ?_⟩
      rw [← (h.held d).owner s, ← heq, howner, gid_groupAt]
  · exact .inl hn

/-! ### What a server has heard -/

/-- The numbers a server knows are ones that the groups have answered with. -/
def Reported (commits : List (Int × Op)) (nums : GoMap Int Nat) : Prop :=
  ∀ d ∈ nums.keys, 0 < nums.getD d 0 ∧ nums.getD d 0 ≤ (groupAt commits d).hello

theorem Reported.empty (commits : List (Int × Op)) : Reported commits .empty := by
  intro d hd
  rw [GoMap.keys_empty] at hd
  cases hd

theorem Reported.concat (h : Reported commits nums) {x : Int × Op}
    (hlaw : Lawful H (commits ++ [x])) : Reported (commits ++ [x]) nums := by
  intro d hd
  obtain ⟨hpos, hle⟩ := h d hd
  refine ⟨hpos, hle.trans ?_⟩
  have := hlaw.hello_take_le commits.length d
  rwa [List.take_left] at this

theorem Reported.set (h : Reported commits nums) {k : Nat} (hk : 0 < k)
    (hle : k ≤ (groupAt commits d).hello) :
    Reported commits (nums.set d (max (nums.getD d 0) k)) := by
  intro d' hd'
  rw [GoMap.getD_set]
  by_cases heq : d' = d
  · subst heq
    rw [if_pos rfl]
    refine ⟨lt_max_of_lt_right hk, max_le ?_ hle⟩
    by_cases hmem : d' ∈ nums.keys
    · exact (h d' hmem).2
    · have hzero : nums.getD d' 0 = 0 := by
        rw [GoMap.getD, GoMap.get?_eq_none.mpr hmem]
        rfl
      rw [hzero]
      exact Nat.zero_le _
  · rw [if_neg heq]
    exact h d' ((GoMap.mem_keys_set.mp hd').resolve_left heq)

theorem Reported.merge (h : Reported commits nums) {heard : GoMap Int Nat}
    (hheard : Reported commits heard) {keys : List Int} (hkeys : ∀ d ∈ keys, d ∈ heard.keys) :
    Reported commits (keys.foldl
      (fun nums d => nums.set d (max (nums.getD d 0) (heard.getD d 0))) nums) := by
  induction keys generalizing nums with
  | nil => exact h
  | cons d rest ih =>
    obtain ⟨hpos, hle⟩ := hheard d (hkeys d List.mem_cons_self)
    exact ih (h.set hpos hle) fun d' hd' => hkeys d' (List.mem_cons_of_mem _ hd')

theorem Reported.heard (h : Reported commits skv.gid2UnCompletedConfigNum)
    (hnums : Reported commits nums) (merge order : RangeOrder Int) :
    Reported commits (skv.heard merge order nums).gid2UnCompletedConfigNum := by
  have hmerge := h.merge hnums fun d hd => (merge.mem_list).mp hd
  unfold ShardKV.heard
  dsimp only
  split <;> exact hmerge

/-- The loop of `clean` finds a minimum, if no entry is the zero that marks "none yet". -/
theorem foldl_lowest_le (f : Int → Nat) {keys : List Int} (hpos : ∀ d ∈ keys, 0 < f d)
    (lowest : Nat) :
    (0 < lowest → keys.foldl
      (fun lowest d => if lowest = 0 then f d else min lowest (f d)) lowest ≤ lowest) ∧
    ∀ d ∈ keys, keys.foldl
      (fun lowest d => if lowest = 0 then f d else min lowest (f d)) lowest ≤ f d := by
  induction keys generalizing lowest with
  | nil => exact ⟨fun _ => Nat.le_refl _, fun _ h => nomatch h⟩
  | cons d rest ih =>
    have hd := hpos d List.mem_cons_self
    obtain ⟨hacc, hrest⟩ := ih (fun d' hd' => hpos d' (List.mem_cons_of_mem _ hd'))
      (if lowest = 0 then f d else min lowest (f d))
    have hnew : 0 < (if lowest = 0 then f d else min lowest (f d)) := by
      split
      · exact hd
      · exact lt_min (by omega) hd
    have hle := hacc hnew
    rw [List.foldl_cons]
    refine ⟨fun hl => ?_, fun d' hd' => ?_⟩
    · refine hle.trans ?_
      rw [if_neg (by omega)]
      exact min_le_left _ _
    · rcases List.mem_cons.mp hd' with rfl | hmem
      · refine hle.trans ?_
        split
        · exact Nat.le_refl _
        · exact min_le_right _ _
      · exact hrest d' hmem

theorem Reported.lowest_le (h : Reported commits nums) (order : RangeOrder Int)
    (hd : d ∈ nums.keys) : lowestConfigNum order nums ≤ (groupAt commits d).hello := by
  refine Nat.le_trans ?_ (h d hd).2
  refine (foldl_lowest_le (fun d => nums.getD d 0) (fun d' hd' => ?_) 0).2 d (order.mem_list.mpr hd)
  exact (h d' (order.mem_list.mp hd')).1

/-! ### Reports over a run -/

structure ReplicaReports (commits : List (Int × Op)) (replica : Replica) : Prop where
  skv : Reported commits replica.skv.gid2UnCompletedConfigNum
  saved : ∀ data, replica.persisted = some data → Reported commits data.gid2UnCompletedConfigNum
  round : ∀ cfg nums, replica.round = some (cfg, nums) → Reported commits nums

structure GroupReports (commits : List (Int × Op)) (group : Group) : Prop where
  replica : ∀ r, ReplicaReports commits (group.replicas r)
  snapshot : ∀ data ∈ group.snapshots, Reported commits data.gid2UnCompletedConfigNum

/-- Whatever any server of any group has heard was answered. -/
def Reports (w : World) : Prop := ∀ g, GroupReports w.commits (w.groups g)

section Steps
variable {rep : Replica} {group : Group} {r : Nat} {op : Op}

theorem GroupReports.setReplica (h : GroupReports commits group) (hrep : ReplicaReports commits rep)
    (r : Nat) :
    GroupReports commits { group with replicas := Function.update group.replicas r rep } where
  replica := (Function.forall_update_iff group.replicas fun _ => ReplicaReports commits).mpr
    ⟨hrep, fun r' _ => h.replica r'⟩
  snapshot := h.snapshot

theorem Reports.setGroup (h : Reports w) (hgroup : GroupReports w.commits group) :
    Reports (w.setGroup g group) :=
  (Function.forall_update_iff w.groups fun _ => GroupReports w.commits).mpr
    ⟨hgroup, fun g' _ => h g'⟩

theorem Reports.setReplica (h : Reports w) (hrep : ReplicaReports w.commits rep) :
    Reports (w.setReplica g r rep) :=
  h.setGroup ((h g).setReplica hrep r)

theorem Reports.replica (h : Reports w) (g : Int) (r : Nat) :
    ReplicaReports w.commits (w.replica g r) :=
  (h g).replica r

theorem Reports.propose (h : Reports w) : Reports (w.propose g op) :=
  h.setGroup ⟨(h g).replica, (h g).snapshot⟩

theorem Reports.setChan (h : Reports w) (call : Call) (chan : Option Nat) :
    Reports (w.setChan call chan) := by
  refine h.setReplica ?_
  exact ⟨(h.replica _ _).skv, (h.replica _ _).saved, (h.replica _ _).round⟩

theorem gid2UnCompletedConfigNum_foldl_acceptShard (skv : ShardKV) (shifts : List ShiftShard) :
    (shifts.foldl acceptShard skv).gid2UnCompletedConfigNum = skv.gid2UnCompletedConfigNum := by
  induction shifts generalizing skv with
  | nil => rfl
  | cons shift rest ih =>
    refine (ih _).trans ?_
    unfold acceptShard
    split <;> rfl

/-- No command touches what the server has heard. -/
theorem gid2UnCompletedConfigNum_next (skv : ShardKV) (op : Op) :
    (skv.next op).gid2UnCompletedConfigNum = skv.gid2UnCompletedConfigNum := by
  cases op with
  | client args =>
    unfold ShardKV.next applyCommand applyOp
    dsimp only
    split <;> rfl
  | config cfg =>
    by_cases hadv : Advances skv cfg
    · rw [next_config_of_advances hadv]
      rfl
    · rw [next_config_of_not_advances hadv]
  | shards shifts info => exact gid2UnCompletedConfigNum_foldl_acceptShard skv shifts

theorem Reports.apply (h : Reports w) : Reports (w.apply g r op) := by
  have hrep : ReplicaReports w.commits { w.replica g r with skv := (w.skv g r).next op } := by
    refine ⟨?_, (h.replica g r).saved, (h.replica g r).round⟩
    rw [gid2UnCompletedConfigNum_next]
    exact (h.replica g r).skv
  exact h.setReplica (g := g) (r := r) hrep

theorem Reports.commit (h : Reports w) {j : Nat} (hlaw : Lawful H (w.commits ++ [(g, op)])) :
    Reports (w.commit g j op) := by
  have hgroups : ∀ g', GroupReports (w.commits ++ [(g, op)]) (w.groups g') := fun g' =>
    ⟨fun r => ⟨((h g').replica r).skv.concat hlaw,
      fun data hd => (((h g').replica r).saved data hd).concat hlaw,
      fun cfg nums hr => (((h g').replica r).round cfg nums hr).concat hlaw⟩,
      fun data hd => ((h g').snapshot data hd).concat hlaw⟩
  exact (Function.forall_update_iff w.groups fun _ => GroupReports (w.commits ++ [(g, op)])).mpr
    ⟨⟨(hgroups g).replica, (hgroups g).snapshot⟩, fun g' _ => hgroups g'⟩

/-- What a member of another group answers is what a prefix of its log says. -/
theorem Reported.hello {nums : GoMap Int Nat} {target : Int} (h : Reported w.commits nums)
    (hsound : Sound H w) (htarget : target ≠ 0) (replica : Nat) :
    Reported w.commits
      (nums.set target (max (nums.getD target 0) (w.skv target replica).hello)) := by
  obtain ⟨q, -, hagrees⟩ := (hsound.replica target replica).skv
  have hhello : (w.skv target replica).hello = (groupAt (w.commits.take q) target).hello := by
    show (w.replica target replica).skv.hello = _
    simp only [ShardKV.hello, hagrees.isMigrateFinished, hagrees.curConfig]
  refine h.set ?_ ?_ <;> rw [hhello]
  · exact (hsound.lawful.take q).hello_pos htarget
  · exact hsound.lawful.hello_take_le q target

theorem Reports.snapshot (h : Reports w) (g : Int) (r : Nat) :
    Reports (w.setGroup g
      { w.groups g with
        snapshots := (w.groups g).snapshots ++ [w.skv g r]
        replicas := Function.update (w.groups g).replicas r
          { w.replica g r with persisted := some (w.skv g r) } }) := by
  have hskv := (h.replica g r).skv
  have hrep : ReplicaReports w.commits { w.replica g r with persisted := some (w.skv g r) } :=
    ⟨hskv, fun data hd => Option.some.inj hd ▸ hskv, (h.replica g r).round⟩
  have hset := (h g).setReplica hrep r
  refine h.setGroup ⟨hset.replica, fun data hd => ?_⟩
  rcases List.mem_append.mp hd with hold | hnew
  · exact (h g).snapshot data hold
  · rw [List.mem_singleton.mp hnew]
    exact hskv

theorem Reported.applySnapshot {skv data : ShardKV}
    (h : Reported commits skv.gid2UnCompletedConfigNum)
    (hdata : Reported commits data.gid2UnCompletedConfigNum) (index : Nat) :
    Reported commits (skv.applySnapshot index data).gid2UnCompletedConfigNum := by
  unfold ShardKV.applySnapshot
  split
  · exact hdata
  · exact h

theorem Reports.restart (h : Reports w) (g : Int) (r : Nat) : Reports (w.restart g r) := by
  have hrep : ReplicaReports w.commits
      { skv := startServer g (w.replica g r).persisted
        persisted := (w.replica g r).persisted } := by
    refine ⟨?_, (h.replica g r).saved, fun _ _ hr => nomatch hr⟩
    cases hp : (w.replica g r).persisted with
    | none => exact Reported.empty _
    | some data => exact (h.replica g r).saved data hp
  exact h.setReplica (g := g) (r := r) hrep

theorem Reports.stepped (h : Reports w) (hsound : Sound H w) (hsound' : Sound H w')
    (hstep : Stepped H w w') : Reports w' := by
  cases hstep with
  | invoke => exact h
  | attempt => exact h
  | enter =>
    unfold World.enter
    split
    · exact h
    · split
      · exact h.propose.setChan _ _
      · exact h
  | receive => exact h.setChan _ _
  | timeout => exact h.setChan _ _
  | fail => exact h
  | finish => exact h
  | commit => exact (h.commit hsound'.lawful).apply
  | apply => exact h.apply
  | updateConfig => exact h.propose
  | pull =>
    unfold World.pull
    split
    · exact h.propose
    · exact h
  | shardDock => exact h.propose
  | @sayHello g r =>
    refine h.setReplica ⟨(h.replica g r).skv, (h.replica g r).saved, fun cfg nums hr => ?_⟩
    cases hr
    exact (h.replica g r).skv
  | @hello g target r replica cfg nums hround htarget =>
    refine h.setReplica ⟨(h.replica g r).skv, (h.replica g r).saved, fun cfg' nums' hr => ?_⟩
    cases hr
    exact ((h.replica g r).round cfg nums hround).hello hsound htarget replica
  | @clean g r merge order cfg nums hround =>
    refine h.setReplica ⟨?_, (h.replica g r).saved, fun _ _ hr => nomatch hr⟩
    exact (h.replica g r).skv.heard ((h.replica g r).round cfg nums hround) merge order
  | snapshot => exact h.snapshot _ _
  | @install g r data hdata =>
    have hsnap := (h g).snapshot data hdata
    exact h.setReplica ⟨(h.replica g r).skv.applySnapshot hsnap _,
      fun data' hd => Option.some.inj hd ▸ hsnap, (h.replica g r).round⟩
  | restart => exact h.restart _ _

end Steps

theorem reports_of_reach {ok : World → Action → Prop} (h : (service H).Reach ok w) :
    Reports w := by
  refine h.invariant (fun g => ⟨fun r => ⟨Reported.empty _, fun _ hd => (nomatch hd),
    fun _ _ hr => nomatch hr⟩, fun _ hd => nomatch hd⟩) ?_
  intro w a w' hreach hreports _ hstep
  have hsound := sound_of_reach hreach
  exact hreports.stepped hsound (hsound.stepped (step_cases hstep)) (step_cases hstep)

/-! ### Deletions -/

/-- The records of configuration `n` that a server had and has no more. -/
def Drops (skv skv' : ShardKV) (n : Nat) : Prop :=
  (skv.outShardsDock n ≠ none ∧ skv'.outShardsDock n = none) ∨
    (skv.config2ClientInfo n ≠ none ∧ skv'.config2ClientInfo n = none)

/-- The log of group `d` has a SHARDS entry that installed shard `s` in configuration `n`. -/
def Delivered (commits : List (Int × Op)) (d : Int) (n : Nat) (s : Shard) : Prop :=
  ∃ i shifts info, commits[i]? = some (d, .shards shifts info) ∧
    Installs (groupAt (commits.take i) d) (groupAt (commits.take (i + 1)) d) n s

/-- The server has heard of each group that is to get a shard from a dock below the threshold. -/
def OwnersHeard (H : ConfigHistory) (skv : ShardKV) (order : RangeOrder Int)
    (nums : GoMap Int Nat) : Prop :=
  ∀ n < lowestConfigNum order nums, ∀ s, ((skv.outShardsDock n).bind (· s)).isSome = true →
    H.owner n s ≠ 0 → H.owner n s ∈ nums.keys

instance (H : ConfigHistory) (skv : ShardKV) (order : RangeOrder Int) (nums : GoMap Int Nat) :
    Decidable (OwnersHeard H skv order nums) :=
  inferInstanceAs (Decidable (∀ n < _, ∀ _ : Fin nShards, _ → _ → _))

/-- What a round drops is below the minimum over the groups it has heard. -/
theorem lt_lowest_of_drops {merge order : RangeOrder Int}
    (h : Drops skv (skv.heard merge order nums) n) :
    n < lowestConfigNum order (skv.heard merge order nums).gid2UnCompletedConfigNum := by
  unfold ShardKV.heard at h ⊢
  dsimp only at h ⊢
  split
  · rename_i hlen
    rw [if_pos hlen] at h
    by_contra hge
    rcases h with ⟨hsome, hnone⟩ | ⟨hsome, hnone⟩
    · exact hsome ((if_neg hge).symm.trans hnone)
    · exact hsome ((if_neg hge).symm.trans hnone)
  · rename_i hlen
    rw [if_neg hlen] at h
    rcases h with ⟨hsome, hnone⟩ | ⟨hsome, hnone⟩
    · exact absurd hnone hsome
    · exact absurd hnone hsome

/-- A shard in a dock leaves its group for another one. -/
theorem Lawful.dock_leaves (h : Lawful H commits) {dock : Shard → Option ShiftShard}
    (hdock : (groupAt commits g).outShardsDock n = some dock) (hs : (dock s).isSome = true) :
    H.owner (n - 1) s = g ∧ H.owner n s ≠ g := by
  obtain ⟨i, cfg, hrel, rfl, -⟩ := h.release hdock
  have hheld := (h.take i).held g
  have hop := (h.entry hrel.entry).2
  have hnum := hop.num_eq hrel.advances
  have hcfg := hop.config_eq
  rw [hrel.num] at hnum hcfg
  obtain ⟨shift, hshift⟩ := Option.isSome_iff_exists.mp hs
  obtain ⟨hhas, hleaves⟩ := outShards_iff.mp (makeOutShards_eq_some.mp hshift).1
  rw [gid_groupAt] at hleaves
  constructor
  · rw [hnum, Nat.add_sub_cancel, hheld.owner s, hheld.mine s hhas, gid_groupAt]
  · rwa [ConfigHistory.owner_eq hcfg]

/-- A group that had a shard which another group gave away got it with a SHARDS entry. -/
theorem Lawful.delivered (h : Lawful H commits) (hhad : Had H commits d n s)
    (hother : H.owner (n - 1) s ≠ d) : Delivered commits d n s := by
  obtain ⟨i, op, hi, hinst⟩ := h.exists_installs hhad
  have hheld := (h.take i).held
  have hop := (h.entry hi).2
  have hproper : ∀ shifts info, op = .shards shifts info → ∀ shift ∈ shifts, shift.Proper :=
    fun shifts info heq => by subst heq; exact hop.proper hheld
  rcases hinst.cases (hheld d) hproper with ⟨cfg, rfl, hnum, hadv, hhas, -⟩ | ⟨shifts, info, rfl, -⟩
  · -- a shard that was kept was the group's own before
    refine absurd ?_ hother
    have hn : n - 1 = (groupAt (commits.take i) d).curConfig.num := by
      have := hop.num_eq hadv
      omega
    rw [hn, (hheld d).owner s, (hheld d).mine s hhas, gid_groupAt]
  · refine ⟨i, shifts, info, hi, ?_⟩
    rw [groupAt_take_succ hi]
    exact hinst

/-- **Garbage collection after delivery.** In every reachable state: a round of `sayHello` at a
server that has heard of all groups its expired docks are for drops the records of a
configuration only if each of these groups has installed its shards of the dock. -/
theorem drops_delivered_of_ownersHeard {r : Nat} {merge order : RangeOrder Int} {cfg : Config}
    (hw : (service H).Reach System.anyStep w) (hround : (w.replica g r).round = some (cfg, nums))
    (hstep : (service H).step w (.clean g r merge order) = some w')
    (hheard : OwnersHeard H (w.skv g r) order
      ((w.skv g r).heard merge order nums).gid2UnCompletedConfigNum)
    {dock : Shard → Option ShiftShard} (hdrops : Drops (w.skv g r) (w'.skv g r) n)
    (hdock : (w.skv g r).outShardsDock n = some dock) (hs : (dock s).isSome = true)
    (howner : H.owner n s ≠ 0) : Delivered w.commits (H.owner n s) n s := by
  have hskv : w'.skv g r = (w.skv g r).heard merge order nums := by
    simp only [service, step, hround, Option.map_some, Option.some.injEq] at hstep
    subst hstep
    simp [World.skv, World.replica, World.setReplica, World.setGroup]
  rw [hskv] at hdrops
  have hsound := sound_of_reach hw
  have hlow := lt_lowest_of_drops hdrops
  -- the owner is known with a number above `n`, so it had the shard
  have hkey := hheard n hlow s (by rw [hdock]; exact hs) howner
  have hreported := ((reports_of_reach hw).replica g r).skv.heard
    (((reports_of_reach hw).replica g r).round cfg nums hround) merge order
  have hhad := hsound.lawful.had_of_hello
    (hlow.trans_le (hreported.lowest_le order hkey)) (s := s) rfl
  refine hsound.lawful.delivered hhad ?_
  obtain ⟨q, -, hagrees⟩ := (hsound.replica g r).skv
  rcases hagrees.docks n with ⟨hnone, -⟩ | ⟨heq, -⟩
  · exact absurd (hdock.symm.trans hnone) (Option.some_ne_none dock)
  · obtain ⟨hbefore, hafter⟩ := (hsound.lawful.take q).dock_leaves (heq.symm.trans hdock) hs
    rw [hbefore]
    exact Ne.symm hafter

/-! ### Four groups -/

/-- Four groups share the shards, with shard 0 on group `gid`. -/
def fourGroups (n : Nat) (gid : Int) : Config where
  num := n
  shards := fun s => if s.val = 0 then gid else s.val % 4 + 1
  groups := .ofList [(1, ["a"]), (2, ["b"]), (3, ["c"]), (4, ["d"])]

/-- The groups join, then shard 0 is moved from group 1 to group 4. -/
def moveToFour : ConfigHistory where
  config
    | 0 => some {}
    | 1 => some (fourGroups 1 1)
    | 2 => some (fourGroups 2 4)
    | _ => none
  zero := rfl
  num n cfg h := by
    match n, h with
    | 0, h => cases h; rfl
    | 1, h => cases h; rfl
    | 2, h => cases h; rfl

/-- Group `g` goes through both configurations with what it had at first. -/
def followConfigs (g : Int) : List Action :=
  [.updateConfig g 0 true, .commit g 0 0, .checkMissShards g 0 true, .commit g 0 0,
   .updateConfig g 0 true, .commit g 0 0]

/-- Group 1 asks the groups in the list. -/
def hearGroups (gs : List Int) : List Action :=
  .sayHello 1 0 :: gs.map fun g => .hello 1 0 g 0 true

/-- Group 4 is slow: the others take up configuration 2, and group 1 hears groups 2 and 3. -/
def silentFour : List Action :=
  [1, 2, 3].flatMap followConfigs ++ hearGroups [2, 3]

/-- Group 4 pulls shard 0 and is heard too. -/
def heardFour : List Action :=
  [1, 2, 3, 4].flatMap followConfigs ++
    [.checkMissShards 4 0 true, .shardDock 0 0, .commit 4 0 0] ++ hearGroups [2, 3, 4]

/-- The server of group 1 before and after the round. -/
def beforeAfter (as : List Action) : Option (World × World) :=
  ((service moveToFour).run (service moveToFour).init as).bind fun w =>
    ((service moveToFour).step w (.clean 1 0 .sorted .sorted)).map (w, ·)

theorem reach_of_beforeAfter {as : List Action} (h : beforeAfter as = some (w, w')) :
    (service moveToFour).Reach System.anyStep w ∧
      (service moveToFour).step w (.clean 1 0 .sorted .sorted) = some w' := by
  obtain ⟨w₀, hrun, hmap⟩ := Option.bind_eq_some_iff.mp h
  obtain ⟨w₁, hstep, heq⟩ := Option.map_eq_some_iff.mp hmap
  cases heq
  exact ⟨System.reach_run .init (fun _ _ => trivial) _ hrun, hstep⟩

theorem silentFour_runs : ((beforeAfter silentFour).map fun p =>
    decide ((((p.1.skv 1 0).outShardsDock 2).bind (· 0)).isSome = true ∧
      ((p.2.skv 1 0).outShardsDock 2).isNone = true ∧
      ∀ i < p.1.commits.length, p.1.commits[i]?.map (·.1) ≠ some 4)) = some true := by
  decide +kernel

/-- Group 1 drops the dock of configuration 2, which gives shard 0 to group 4, though the log
of group 4 is empty. -/
theorem drops_undelivered_silentFour : ∃ w w' dock,
    (service moveToFour).Reach System.anyStep w ∧
    (service moveToFour).step w (.clean 1 0 .sorted .sorted) = some w' ∧
    (w.skv 1 0).outShardsDock 2 = some dock ∧ (dock 0).isSome = true ∧
    Drops (w.skv 1 0) (w'.skv 1 0) 2 ∧ moveToFour.owner 2 0 = 4 ∧
    ¬ Delivered w.commits (moveToFour.owner 2 0) 2 0 := by
  obtain ⟨⟨w, w'⟩, hrun, hw⟩ := Option.map_eq_some_iff.mp silentFour_runs
  obtain ⟨hsome, hnone, hsilent⟩ := of_decide_eq_true hw
  obtain ⟨hreach, hstep⟩ := reach_of_beforeAfter hrun
  obtain ⟨shift, hshift⟩ := Option.isSome_iff_exists.mp hsome
  obtain ⟨dock, hdock, hs⟩ := Option.bind_eq_some_iff.mp hshift
  refine ⟨w, w', dock, hreach, hstep, hdock, by rw [hs]; rfl, ?_, rfl, ?_⟩
  · exact .inl ⟨Option.ne_none_iff_exists'.mpr ⟨dock, hdock⟩, Option.isNone_iff_eq_none.mp hnone⟩
  · rintro ⟨i, shifts, info, hi, -⟩
    refine hsilent i (List.getElem?_eq_some_iff.mp hi).1 ?_
    show w.commits[i]?.map (·.1) = some 4
    rw [hi]
    rfl

theorem heardFour_runs : ((beforeAfter heardFour).map fun p =>
    decide ((((p.1.skv 1 0).outShardsDock 2).bind (· 0)).isSome = true ∧
      ((p.2.skv 1 0).outShardsDock 2).isNone = true ∧
      ((p.1.replica 1 0).round.map fun round => decide (OwnersHeard moveToFour (p.1.skv 1 0) .sorted
        ((p.1.skv 1 0).heard .sorted .sorted round.2).gid2UnCompletedConfigNum)) = some true)) =
      some true := by
  decide +kernel

theorem drops_delivered_heardFour : ∃ w w',
    (service moveToFour).Reach System.anyStep w ∧
    (service moveToFour).step w (.clean 1 0 .sorted .sorted) = some w' ∧
    Drops (w.skv 1 0) (w'.skv 1 0) 2 ∧ Delivered w.commits 4 2 0 := by
  obtain ⟨⟨w, w'⟩, hrun, hw⟩ := Option.map_eq_some_iff.mp heardFour_runs
  obtain ⟨hsome, hnone, hround⟩ := of_decide_eq_true hw
  obtain ⟨⟨cfg, nums⟩, hround, hheard⟩ := Option.map_eq_some_iff.mp hround
  obtain ⟨hreach, hstep⟩ := reach_of_beforeAfter hrun
  obtain ⟨shift, hshift⟩ := Option.isSome_iff_exists.mp hsome
  obtain ⟨dock, hdock, hs⟩ := Option.bind_eq_some_iff.mp hshift
  have hdrops : Drops (w.skv 1 0) (w'.skv 1 0) 2 :=
    .inl ⟨Option.ne_none_iff_exists'.mpr ⟨dock, hdock⟩, Option.isNone_iff_eq_none.mp hnone⟩
  exact ⟨w, w', hreach, hstep, hdrops,
    drops_delivered_of_ownersHeard hreach hround hstep (of_decide_eq_true hheard) hdrops hdock
      (s := 0) (by rw [hs]; rfl) (by decide)⟩

end RaftLabs.ShardKV
