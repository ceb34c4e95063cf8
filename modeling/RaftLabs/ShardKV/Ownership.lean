import RaftLabs.ShardKV.Invariant

/-! Exclusive ownership of shards.

When every configuration after number 0 gives out all shards, only configuration 1 looks like a
first one. The chain of owners of a shard then has no gap: a group that has the shard in some
configuration is the only one that has not moved on from its own place in the chain. -/
namespace RaftLabs.ShardKV
open Lib ShardCtrler

variable {H : ConfigHistory} {commits : List (Int × Op)} {g g' : Int} {n m : Nat} {s : Shard}
variable {w : World}

/-- Every configuration after number 0 gives every shard to a group. -/
def ConfigHistory.Full (H : ConfigHistory) : Prop :=
  ∀ n cfg, 0 < n → H.config n = some cfg → ∀ s, cfg.shards s ≠ 0

theorem ConfigHistory.Full.owner_ne (hfull : H.Full) (hn : 0 < n) (hknown : (H.config n).isSome)
    (s : Shard) : H.owner n s ≠ 0 := by
  obtain ⟨cfg, hcfg⟩ := Option.isSome_iff_exists.mp hknown
  rw [ConfigHistory.owner_eq hcfg]
  exact hfull n cfg hn hcfg s

/-- Only the shards of configuration 1 are installed by the first-configuration branch. -/
theorem ConfigHistory.Full.eq_one (hfull : H.Full) (hn : 0 < n) (hknown : (H.config (n - 1)).isSome)
    (h0 : H.owner (n - 1) 0 = 0) : n = 1 := by
  by_contra hne
  exact hfull.owner_ne (by omega) hknown 0 h0

theorem Had.num_le (h : Had H commits g n s) : n ≤ (groupAt commits g).curConfig.num := by
  rcases h.2 with hlt | ⟨heq, -⟩
  · exact hlt.le
  · exact heq.le

/-- The owners of a shard before the one that had it have moved on. -/
theorem Lawful.moved_on (h : Lawful H commits) (hfull : H.Full) (hhad : Had H commits g m s)
    (hn : 0 < n) (hnm : n < m) : n < (groupAt commits (H.owner n s)).curConfig.num := by
  have hknown : ∀ k ≤ m, (H.config k).isSome := fun k hk =>
    (h.held g).known k (hk.trans hhad.num_le)
  have howner : H.owner m s ≠ 0 := hfull.owner_ne (hn.trans hnm) (hknown m (Nat.le_refl m)) s
  rw [← hhad.1] at hhad
  exact (h.descend hhad howner hnm fun k hk hkm _ _ =>
    hfull.owner_ne (by omega) (hknown (k - 1) (by omega)) 0).2

/-- A group that has a shard is given it after configuration 0. -/
theorem Lawful.num_pos_of_shards (h : Lawful H commits) (hg : g ≠ 0)
    (hs : (groupAt commits g).shards s = true) : 0 < (groupAt commits g).curConfig.num := by
  refine ConfigHistory.pos_of_owner (H := H) (s := s) ?_
  rw [(h.had_of_shards hs).1]
  exact hg

theorem Lawful.gid_ne_zero_of_shards (h : Lawful H commits)
    (hs : (groupAt commits g).shards s = true) : g ≠ 0 := by
  obtain ⟨i, op, hi, -⟩ := h.exists_installs (h.had_of_shards hs)
  exact (h.entry hi).1

/-- **At most one group has a shard.** -/
theorem Lawful.shards_exclusive (h : Lawful H commits) (hfull : H.Full)
    (hs : (groupAt commits g).shards s = true) (hs' : (groupAt commits g').shards s = true) :
    g = g' := by
  have hhad := h.had_of_shards hs
  have hhad' := h.had_of_shards hs'
  have hpos := h.num_pos_of_shards (h.gid_ne_zero_of_shards hs) hs
  have hpos' := h.num_pos_of_shards (h.gid_ne_zero_of_shards hs') hs'
  rcases Nat.lt_trichotomy (groupAt commits g).curConfig.num
    (groupAt commits g').curConfig.num with hlt | heq | hgt
  · have hmoved := h.moved_on hfull hhad' hpos hlt
    rw [hhad.1] at hmoved
    exact absurd hmoved (Nat.lt_irrefl _)
  · rw [← hhad.1, heq, hhad'.1]
  · have hmoved := h.moved_on hfull hhad hpos' hgt
    rw [hhad'.1] at hmoved
    exact absurd hmoved (Nat.lt_irrefl _)

/-- An entry that installs a shard in a configuration after the first gives the group what the
owner before had of the shard when it took up this configuration. -/
theorem Lawful.installs_data (h : Lawful H commits) (hfull : H.Full) {i : Nat} {op : Op}
    (hi : commits[i]? = some (g, op)) (hn : 1 < n)
    (hinst : Installs (groupAt (commits.take i) g) ((groupAt (commits.take i) g).next op) n s) :
    ∃ j cfg, j ≤ i ∧ Release commits (H.owner (n - 1) s) n j cfg ∧
      (groupAt (commits.take j) (H.owner (n - 1) s)).shards s = true ∧
      ∀ key, key2shard key = s → ((groupAt (commits.take i) g).next op).shardKVMap key =
        (groupAt (commits.take j) (H.owner (n - 1) s)).shardKVMap key := by
  rcases h.installs_from hi hinst with ⟨-, h0, -⟩ | ⟨j, cfg, hj, hrel, hhas, hkv, -⟩
  · have hknown : (H.config (n - 1)).isSome := by
      have hheld := (h.take (i + 1)).held g
      rw [groupAt_take_succ hi] at hheld
      exact hheld.known (n - 1) (by rw [hinst.2.1]; omega)
    exact absurd (hfull.eq_one (by omega) hknown h0) (by omega)
  · exact ⟨j, cfg, hj, hrel, hhas, hkv⟩

/-- **Exclusive ownership.** In every run over a history that gives out all shards: at most one
group has a shard, and an entry with which a group gets shard `s` in configuration `n > 1` leaves
it with exactly the pairs of `s` that the owner in configuration `n - 1` had when that group took
up configuration `n`. -/
theorem exclusive_ownership (hfull : H.Full) (hw : (service H).Reach System.anyStep w) :
    (∀ s g g', (groupAt w.commits g).shards s = true → (groupAt w.commits g').shards s = true →
      g = g') ∧
    ∀ i g op n s, w.commits[i]? = some (g, op) → 1 < n →
      Installs (groupAt (w.commits.take i) g) (groupAt (w.commits.take (i + 1)) g) n s →
      ∃ j cfg, j ≤ i ∧ Release w.commits (H.owner (n - 1) s) n j cfg ∧
        (groupAt (w.commits.take j) (H.owner (n - 1) s)).shards s = true ∧
        ∀ key, key2shard key = s → (groupAt (w.commits.take (i + 1)) g).shardKVMap key =
          (groupAt (w.commits.take j) (H.owner (n - 1) s)).shardKVMap key := by
  have hlaw := (sound_of_reach hw).lawful
  refine ⟨fun s g g' => hlaw.shards_exclusive hfull, fun i g op n s hi hn hinst => ?_⟩
  rw [groupAt_take_succ hi] at hinst ⊢
  exact hlaw.installs_data hfull hi hn hinst

/-! ### A shard moves -/

/-- All shards on one of two groups. -/
def allOn (n : Nat) (gid : Int) : Config where
  num := n
  shards := fun _ => gid
  groups := .ofList [(1, ["a"]), (2, ["b"])]

/-- Group 1 has all shards first, then group 2. -/
def oneThenTwo : ConfigHistory where
  config
    | 0 => some {}
    | 1 => some (allOn 1 1)
    | 2 => some (allOn 2 2)
    | _ => none
  zero := rfl
  num n cfg h := by
    match n, h with
    | 0, h => cases h; rfl
    | 1, h => cases h; rfl
    | 2, h => cases h; rfl

theorem oneThenTwo_full : oneThenTwo.Full := by
  intro n cfg hn h s
  match n, h with
  | 0, h => exact absurd hn (Nat.lt_irrefl 0)
  | 1, h => cases h; exact (by decide : (1 : Int) ≠ 0)
  | 2, h => cases h; exact (by decide : (2 : Int) ≠ 0)

/-- Group 1 takes a `Put` and gives the shards away; group 2 follows, asks for them, and commits
the answer twice. -/
def moveShard : List Action :=
  [.updateConfig 1 0 true, .commit 1 0 0, .checkMissShards 1 0 true, .commit 1 0 0,
   .invoke 7 (.putAppend .put "k" "v"), .attempt 7 1 0, .enter 0 true true, .commit 1 0 0,
   .receive 0 0, .finish 7, .updateConfig 1 0 true, .commit 1 0 0,
   .updateConfig 2 0 true, .commit 2 0 0, .updateConfig 2 0 true, .commit 2 0 0,
   .checkMissShards 2 0 true, .shardDock 0 0, .shardDock 0 0, .commit 2 0 0, .commit 2 0 0]

theorem moveShard_runs : (((service oneThenTwo).run (service oneThenTwo).init moveShard).map
    fun w => decide ((groupAt w.commits 2).shards (key2shard "k") = true ∧
      (w.commits[6]?.map (·.1) = some 2 ∧
        (groupAt (w.commits.take 6) 2).shards (key2shard "k") = false ∧
        (groupAt (w.commits.take 7) 2).shards (key2shard "k") = true ∧
        (groupAt (w.commits.take 7) 2).curConfig.num = 2) ∧
      (groupAt (w.commits.take 7) 2).shardKVMap "k" = some "v")) = some true := by
  decide +kernel

/-- Group 2 alone has the shard at the end, with the value that group 1 had when it moved on. -/
theorem exclusive_ownership_moveShard :
    ∃ w, (service oneThenTwo).Reach System.anyStep w ∧
      (groupAt w.commits 2).shards (key2shard "k") = true ∧
      (∀ g, (groupAt w.commits g).shards (key2shard "k") = true → g = 2) ∧
      ∃ j cfg, Release w.commits 1 2 j cfg ∧
        (groupAt (w.commits.take j) 1).shardKVMap "k" = some "v" := by
  obtain ⟨w, hrun, hw⟩ := Option.map_eq_some_iff.mp moveShard_runs
  obtain ⟨htwo, ⟨hentry, hbefore, hafter, hnum⟩, hv⟩ := of_decide_eq_true hw
  obtain ⟨⟨g, op⟩, hop, rfl⟩ := Option.map_eq_some_iff.mp hentry
  have hreach := System.reach_run .init (fun _ _ => trivial) _ hrun
  obtain ⟨hexcl, hdata⟩ := exclusive_ownership oneThenTwo_full hreach
  have hinst : Installs (groupAt (w.commits.take 6) 2) (groupAt (w.commits.take 7) 2) 2
      (key2shard "k") :=
    ⟨hafter, hnum, fun h => Bool.false_ne_true (hbefore.symm.trans h.1)⟩
  obtain ⟨j, cfg, -, hrel, -, hkv⟩ := hdata 6 2 op 2 _ hop (by decide) hinst
  exact ⟨w, hreach, htwo, fun g hg => hexcl _ g 2 hg htwo, j, cfg, hrel,
    (hkv "k" rfl).symm.trans hv⟩

end RaftLabs.ShardKV
