import RaftLabs.ShardKV.LocalState

/-! Who has a shard, from the logs of all groups alone.

A log is lawful when each of its entries is one the code can propose: a configuration of the
controller at most one ahead of the group, the empty shards of the first-configuration branch,
or an answer from the dock of a group. In lawful logs a group has a shard of configuration `m`
only if the group before it in the controller's history has left configuration `m - 1` behind,
or the controller had not given out shard 0 then. So the groups that ever had a shard form a
chain, and the last of them is the only one that can still have it. -/
namespace RaftLabs.ShardKV
open Lib ShardCtrler

variable {H : ConfigHistory} {commits : List (Int × Op)} {skv skv' : ShardKV} {g p : Int}
variable {n m i : Nat} {s : Shard} {op : Op}

/-- The group that configuration `n` gives shard `s` to. -/
def ConfigHistory.owner (H : ConfigHistory) (n : Nat) (s : Shard) : Int :=
  ((H.config n).map (·.shards s)).getD 0

theorem ConfigHistory.owner_eq {cfg : Config} (h : H.config n = some cfg) (s : Shard) :
    H.owner n s = cfg.shards s := by
  rw [ConfigHistory.owner, h]
  rfl

theorem ConfigHistory.owner_zero (H : ConfigHistory) (s : Shard) : H.owner 0 s = 0 :=
  ConfigHistory.owner_eq H.zero s

/-- A group that is given a shard is given it after configuration 0. -/
theorem ConfigHistory.pos_of_owner (h : H.owner n s ≠ 0) : 0 < n := by
  refine Nat.pos_of_ne_zero fun h0 => h ?_
  rw [h0]
  exact H.owner_zero s

/-! ### Lawful logs -/

/-- The shards of the first-configuration branch. -/
def firstShards (n : Nat) : List ShiftShard :=
  (List.finRange nShards).map fun s => { configNum := n, shardId := s, kvMap := fun _ => none }

/-- Shards of configuration `n` as group `p`, whose state is `skv`, has them in its dock. -/
structure Docked (H : ConfigHistory) (p : Int) (skv : ShardKV) (n : Nat)
    (shifts : List ShiftShard) (info : ClientInfo) : Prop where
  owner : ∀ shift ∈ shifts, H.owner (n - 1) shift.shardId = p
  dock : ∀ shift ∈ shifts, ∃ dock, skv.outShardsDock n = some dock ∧
    dock shift.shardId = some shift
  info : skv.config2ClientInfo n = some info

/-- What group `g` can add to its log when the groups stand where `commits` leaves them. -/
inductive OpLawful (H : ConfigHistory) (commits : List (Int × Op)) (g : Int) : Op → Prop
  | client {args : Args} (shardId : args.shardId = key2shard args.key) :
      OpLawful H commits g (.client args)
  | config {cfg : Config} (config : H.config cfg.num = some cfg)
      (num : cfg.num ≤ (groupAt commits g).curConfig.num + 1) : OpLawful H commits g (.config cfg)
  | first {n : Nat} (owner : H.owner (n - 1) 0 = 0) :
      OpLawful H commits g (.shards (firstShards n) {})
  | docked {p : Int} {n : Nat} {shifts : List ShiftShard} {info : ClientInfo}
      (docked : Docked H p (groupAt commits p) n shifts info) :
      OpLawful H commits g (.shards shifts info)

inductive Lawful (H : ConfigHistory) : List (Int × Op) → Prop
  | nil : Lawful H []
  | concat {commits : List (Int × Op)} {g : Int} {op : Op} (lawful : Lawful H commits)
      (gid : g ≠ 0) (entry : OpLawful H commits g op) : Lawful H (commits ++ [(g, op)])

theorem Lawful.take (h : Lawful H commits) (i : Nat) : Lawful H (commits.take i) := by
  induction h with
  | nil => simpa using Lawful.nil
  | @concat commits g op h hg hop ih =>
    rcases Nat.lt_or_ge commits.length i with hi | hi
    · rw [List.take_of_length_le (by simpa using Nat.succ_le_of_lt hi)]
      exact h.concat hg hop
    · rwa [List.take_append_of_le_length hi]

/-- The log up to an entry is a lawful log, and the entry can be added to it. -/
theorem Lawful.entry (h : Lawful H commits) (hi : commits[i]? = some (g, op)) :
    g ≠ 0 ∧ OpLawful H (commits.take i) g op := by
  induction h with
  | nil => simp at hi
  | @concat commits g' op' h hg hop ih =>
    rcases Nat.lt_trichotomy i commits.length with hlt | rfl | hgt
    · rw [List.getElem?_append_left hlt] at hi
      rw [List.take_append_of_le_length hlt.le]
      exact ih hi
    · rw [List.getElem?_concat_length, Option.some.injEq, Prod.mk.injEq] at hi
      obtain ⟨rfl, rfl⟩ := hi
      rw [List.take_left]
      exact ⟨hg, hop⟩
    · rw [List.getElem?_eq_none (by simpa using Nat.succ_le_of_lt hgt)] at hi
      cases hi

/-! ### One group -/

/-- What holds of each group's state, in terms of the controller's history. -/
structure Held (H : ConfigHistory) (skv : ShardKV) : Prop where
  cur : H.config skv.curConfig.num = some skv.curConfig
  last : H.config (skv.curConfig.num - 1) = some skv.lastConfig
  known : ∀ m ≤ skv.curConfig.num, (H.config m).isSome
  mine : ∀ s, skv.shards s = true → skv.curConfig.shards s = skv.gid
  keys : ∀ key v, skv.shardKVMap key = some v → skv.shards (key2shard key) = true
  info : ∀ n info, skv.config2ClientInfo n = some info → n ≤ skv.curConfig.num
  dock : ∀ n dock, skv.outShardsDock n = some dock →
    n ≤ skv.curConfig.num ∧ (skv.config2ClientInfo n).isSome
  shift : ∀ n dock s shift, skv.outShardsDock n = some dock → dock s = some shift →
    shift.configNum = n ∧ shift.shardId = s ∧ shift.Proper

theorem Held.start (H : ConfigHistory) (g : Int) : Held H (startServer g none) where
  cur := H.zero
  last := H.zero
  known m hm := by
    rw [Nat.le_zero.mp hm, H.zero]
    rfl
  mine _ h := nomatch h
  keys _ _ h := nomatch h
  info _ _ h := nomatch h
  dock _ _ h := nomatch h
  shift _ _ _ _ h := nomatch h

theorem Held.owner (h : Held H skv) (s : Shard) :
    H.owner skv.curConfig.num s = skv.curConfig.shards s :=
  ConfigHistory.owner_eq h.cur s

theorem Held.consistent (h : Held H skv) : Consistent skv := ⟨h.mine, h.keys, h.shift⟩

/-- An entry that keeps the configuration keeps what is said about it. -/
theorem Held.sameConfig (h : Held H skv) (hc : SameConfig skv skv') (hcons : Consistent skv') :
    Held H skv' where
  cur := by rw [hc.curConfig]; exact h.cur
  last := by rw [hc.curConfig, hc.lastConfig]; exact h.last
  known := by rw [hc.curConfig]; exact h.known
  mine := hcons.mine
  keys := hcons.keys
  info := by rw [hc.curConfig, hc.config2ClientInfo]; exact h.info
  dock := by rw [hc.curConfig, hc.config2ClientInfo, hc.outShardsDock]; exact h.dock
  shift := hcons.shift

/-- A configuration that takes effect is the next one. -/
theorem Held.advanced (h : Held H skv) {cfg : Config} (hcfg : H.config cfg.num = some cfg)
    (hnum : cfg.num = skv.curConfig.num + 1) : Held H (advanced skv cfg) where
  cur := hcfg
  last := by
    show H.config (cfg.num - 1) = some skv.curConfig
    rw [hnum, Nat.add_sub_cancel]
    exact h.cur
  known m hm := by
    rcases Nat.lt_or_eq_of_le (show m ≤ cfg.num from hm) with hlt | rfl
    · exact h.known m (by omega)
    · rw [hcfg]
      rfl
  mine := (h.consistent.advanced cfg).mine
  keys := (h.consistent.advanced cfg).keys
  info k info hk := by
    by_cases hkn : k = cfg.num
    · exact hkn.le
    · have hk' : skv.config2ClientInfo k = some info := by
        simpa [ShardKV.advanced, Function.update_of_ne hkn] using hk
      exact (h.info k info hk').trans (by show _ ≤ cfg.num; omega)
  dock k dock hk := by
    by_cases hkn : k = cfg.num
    · subst hkn
      refine ⟨Nat.le_refl _, ?_⟩
      show (Function.update skv.config2ClientInfo cfg.num (some skv.clientInfo) cfg.num).isSome
      rw [Function.update_self]
      rfl
    · have hk' : skv.outShardsDock k = some dock := by
        simpa [ShardKV.advanced, Function.update_of_ne hkn] using hk
      obtain ⟨hle, hinfo⟩ := h.dock k dock hk'
      refine ⟨hle.trans (by show _ ≤ cfg.num; omega), ?_⟩
      show (Function.update skv.config2ClientInfo cfg.num (some skv.clientInfo) k).isSome
      rwa [Function.update_of_ne hkn]
  shift := (h.consistent.advanced cfg).shift

theorem firstShards_proper : ∀ shift ∈ firstShards n, shift.Proper := by
  intro shift hshift key v hv
  obtain ⟨s, -, rfl⟩ := List.mem_map.mp hshift
  cases hv

/-- The shards of a lawful entry hold keys of their own only. -/
theorem OpLawful.proper {shifts : List ShiftShard} {info : ClientInfo}
    (h : OpLawful H commits g (.shards shifts info)) (hheld : ∀ g, Held H (groupAt commits g)) :
    ∀ shift ∈ shifts, shift.Proper := by
  cases h with
  | first => exact firstShards_proper
  | @docked p n _ _ hdocked =>
    intro shift hshift
    obtain ⟨dock, hdock, hs⟩ := hdocked.dock shift hshift
    exact ((hheld p).shift n dock _ shift hdock hs).2.2

theorem OpLawful.fits (h : OpLawful H commits g op) (hheld : ∀ g, Held H (groupAt commits g)) :
    op.Fits := by
  cases op with
  | client args =>
    cases h with
    | client hargs => exact hargs
  | config cfg => trivial
  | shards shifts info => exact h.proper hheld

/-- A lawful configuration that takes effect is the next one. -/
theorem OpLawful.num_eq {cfg : Config} (h : OpLawful H commits g (.config cfg))
    (hadv : Advances (groupAt commits g) cfg) :
    cfg.num = (groupAt commits g).curConfig.num + 1 := by
  cases h with
  | config _ hnum => exact Nat.le_antisymm hnum hadv.1

theorem OpLawful.config_eq {cfg : Config} (h : OpLawful H commits g (.config cfg)) :
    H.config cfg.num = some cfg := by
  cases h with
  | config hcfg _ => exact hcfg

theorem OpLawful.held (h : OpLawful H commits g op) (hheld : ∀ g, Held H (groupAt commits g)) :
    Held H ((groupAt commits g).next op) := by
  have hcons := (hheld g).consistent.next (h.fits hheld)
  cases op with
  | client args => exact (hheld g).sameConfig (next_client _ args).1 hcons
  | config cfg =>
    by_cases hadv : Advances (groupAt commits g) cfg
    · rw [next_config_of_advances hadv]
      exact (hheld g).advanced h.config_eq (h.num_eq hadv)
    · exact (hheld g).sameConfig (next_config_sameConfig hadv) hcons
  | shards shifts info => exact (hheld g).sameConfig (next_shards_sameConfig _ shifts info) hcons

/-- **Each group's state fits the controller's history.** -/
theorem Lawful.held (h : Lawful H commits) (g : Int) : Held H (groupAt commits g) := by
  induction h generalizing g with
  | nil => exact Held.start H g
  | @concat commits g' op h hg hop ih =>
    by_cases hgg : g = g'
    · subst hgg
      rw [groupAt_self]
      exact hop.held ih
    · rw [groupAt_ne _ _ hgg]
      exact ih g

/-! ### What only grows -/

/-- The configuration does not go back, a shard stays while it stays, and what is once in a dock
is there for good. -/
structure Grows (skv skv' : ShardKV) : Prop where
  num : skv.curConfig.num ≤ skv'.curConfig.num
  shards : ∀ s, skv'.curConfig.num = skv.curConfig.num → skv.shards s = true →
    skv'.shards s = true
  dock : ∀ n dock, skv.outShardsDock n = some dock → skv'.outShardsDock n = some dock
  info : ∀ n info, skv.config2ClientInfo n = some info → skv'.config2ClientInfo n = some info

theorem Grows.refl (skv : ShardKV) : Grows skv skv where
  num := Nat.le_refl _
  shards _ _ h := h
  dock _ _ h := h
  info _ _ h := h

theorem Grows.trans {a b c : ShardKV} (h : Grows a b) (h' : Grows b c) : Grows a c where
  num := h.num.trans h'.num
  shards s hn hs := by
    have hab := h.num
    have hbc := h'.num
    exact h'.shards s (by omega) (h.shards s (by omega) hs)
  dock n dock hd := h'.dock n dock (h.dock n dock hd)
  info n info hi := h'.info n info (h.info n info hi)

theorem SameConfig.grows (h : SameConfig skv skv')
    (hs : ∀ s, skv.shards s = true → skv'.shards s = true) : Grows skv skv' where
  num := by rw [h.curConfig]
  shards s _ := hs s
  dock n dock hd := by rwa [h.outShardsDock]
  info n info hi := by rwa [h.config2ClientInfo]

theorem Held.grows (h : Held H skv) (op : Op) : Grows skv (skv.next op) := by
  cases op with
  | client args =>
    obtain ⟨hc, hs⟩ := next_client skv args
    exact hc.grows (by simp [hs])
  | shards shifts info =>
    exact (next_shards_sameConfig skv shifts info).grows fun s hs =>
      next_shards_shards hs shifts info
  | config cfg =>
    by_cases hadv : Advances skv cfg
    · rw [next_config_of_advances hadv]
      have hlt := hadv.1
      refine ⟨hlt.le, fun s hn => absurd hn hlt.ne', fun n dock hd => ?_, fun n info hi => ?_⟩
      · have hn : n ≠ cfg.num := fun heq => Nat.not_le.mpr hlt (heq ▸ (h.dock n dock hd).1)
        exact (Function.update_of_ne hn _ _).trans hd
      · have hn : n ≠ cfg.num := fun heq => Nat.not_le.mpr hlt (heq ▸ h.info n info hi)
        exact (Function.update_of_ne hn _ _).trans hi
    · refine (next_config_sameConfig hadv).grows ?_
      simp [next_config_of_not_advances hadv]

theorem Lawful.grows (h : Lawful H commits) (i : Nat) (g : Int) :
    Grows (groupAt (commits.take i) g) (groupAt commits g) := by
  induction h with
  | nil =>
    rw [List.take_nil]
    exact Grows.refl _
  | @concat commits g' op h hg hop ih =>
    rcases Nat.lt_or_ge commits.length i with hi | hi
    · rw [List.take_of_length_le (by simpa using Nat.succ_le_of_lt hi)]
      exact Grows.refl _
    · rw [List.take_append_of_le_length hi]
      refine ih.trans ?_
      by_cases hgg : g = g'
      · subst hgg
        rw [groupAt_self]
        exact (h.held g).grows op
      · rw [groupAt_ne _ _ hgg]
        exact Grows.refl _

theorem Lawful.grows_take (h : Lawful H commits) (hm : m ≤ n) (g : Int) :
    Grows (groupAt (commits.take m) g) (groupAt (commits.take n) g) := by
  have := (h.take n).grows m g
  rwa [List.take_take, Nat.min_eq_left hm] at this

theorem groupAt_take_succ (hi : commits[i]? = some (g, op)) :
    groupAt (commits.take (i + 1)) g = (groupAt (commits.take i) g).next op := by
  rw [List.take_add_one, hi]
  exact groupAt_self _ _ _

/-! ### Where a dock comes from -/

/-- Entry `i` of all logs is the CONFIG entry with which group `p` takes up configuration `n`. -/
structure Release (commits : List (Int × Op)) (p : Int) (n i : Nat) (cfg : Config) : Prop where
  entry : commits[i]? = some (p, .config cfg)
  num : cfg.num = n
  advances : Advances (groupAt (commits.take i) p) cfg

theorem Release.concat {cfg : Config} (h : Release commits p n i cfg) (x : Int × Op) :
    Release (commits ++ [x]) p n i cfg := by
  have hi : i < commits.length := (List.getElem?_eq_some_iff.mp h.entry).1
  refine ⟨?_, h.num, ?_⟩
  · rw [List.getElem?_append_left hi]
    exact h.entry
  · rw [List.take_append_of_le_length hi.le]
    exact h.advances

/-- A dock holds what the group had when it took up the configuration. -/
theorem Lawful.release (h : Lawful H commits) {dock : Shard → Option ShiftShard}
    (hd : (groupAt commits p).outShardsDock n = some dock) :
    ∃ i cfg, Release commits p n i cfg ∧ dock = (groupAt (commits.take i) p).makeOutShards cfg ∧
      (groupAt commits p).config2ClientInfo n = some (groupAt (commits.take i) p).clientInfo := by
  induction h with
  | nil => cases hd
  | @concat commits g op h hg hop ih =>
    -- an old dock has its release among the old entries
    have hold : (groupAt commits p).outShardsDock n = some dock →
        ∃ i cfg, Release (commits ++ [(g, op)]) p n i cfg ∧
          dock = (groupAt ((commits ++ [(g, op)]).take i) p).makeOutShards cfg ∧
          (groupAt (commits ++ [(g, op)]) p).config2ClientInfo n =
            some (groupAt ((commits ++ [(g, op)]).take i) p).clientInfo := by
      intro hd
      obtain ⟨i, cfg, hrel, hdock, hinfo⟩ := ih hd
      have hi : i < commits.length := (List.getElem?_eq_some_iff.mp hrel.entry).1
      have hgrows := (h.concat hg hop).grows commits.length p
      rw [List.take_left] at hgrows
      refine ⟨i, cfg, hrel.concat _, ?_, ?_⟩ <;> rw [List.take_append_of_le_length hi.le]
      · exact hdock
      · exact hgrows.info n _ hinfo
    by_cases hgp : p = g
    swap
    · rw [groupAt_ne _ _ hgp] at hd
      exact hold hd
    · subst hgp
      have hsame : SameConfig (groupAt commits p) ((groupAt commits p).next op) →
          (groupAt commits p).outShardsDock n = some dock := by
        intro hc
        rwa [groupAt_self, hc.outShardsDock] at hd
      cases op with
      | client args => exact hold (hsame (next_client _ args).1)
      | shards shifts info => exact hold (hsame (next_shards_sameConfig _ shifts info))
      | config cfg =>
        by_cases hadv : Advances (groupAt commits p) cfg
        swap
        · exact hold (hsame (next_config_sameConfig hadv))
        · by_cases hn : n = cfg.num
          · subst hn
            have hself := groupAt_self commits p (.config cfg)
            rw [next_config_of_advances hadv] at hself
            refine ⟨commits.length, cfg, ⟨List.getElem?_concat_length, rfl, ?_⟩, ?_, ?_⟩ <;>
              rw [List.take_left]
            · exact hadv
            · rw [hself] at hd
              simpa [advanced] using hd.symm
            · rw [hself]
              exact Function.update_self _ _ _
          · refine hold ?_
            rw [groupAt_self, next_config_of_advances hadv] at hd
            exact (Function.update_of_ne hn _ _).symm.trans hd

/-! ### Installing a shard -/

/-- With this entry the group has shard `s` in configuration `n`, and had it not before. -/
def Installs (skv skv' : ShardKV) (n : Nat) (s : Shard) : Prop :=
  skv'.shards s = true ∧ skv'.curConfig.num = n ∧
    ¬ (skv.shards s = true ∧ skv.curConfig.num = n)

/-- A shard is kept when its group takes up the configuration, or comes with a SHARDS entry. -/
theorem Installs.cases (h : Installs skv (skv.next op) n s) (hheld : Held H skv)
    (hproper : ∀ shifts info, op = .shards shifts info → ∀ shift ∈ shifts, shift.Proper) :
    (∃ cfg, op = .config cfg ∧ cfg.num = n ∧ Advances skv cfg ∧ skv.shards s = true ∧
      (∀ key, key2shard key = s → (skv.next op).shardKVMap key = skv.shardKVMap key) ∧
      (skv.next op).clientInfo = skv.clientInfo) ∨
    (∃ shifts info, op = .shards shifts info ∧ skv.shards s = false ∧ skv.curConfig.num = n ∧
      skv.curConfig.shards s = skv.gid ∧
      (∃ shift ∈ shifts, shift.configNum = n ∧ shift.shardId = s ∧
        ∀ key, key2shard key = s → (skv.next op).shardKVMap key = shift.kvMap key) ∧
      (skv.next op).clientInfo = skv.clientInfo.merge info) := by
  obtain ⟨hafter, hnum, hbefore⟩ := h
  cases op with
  | client args =>
    obtain ⟨hc, hs⟩ := next_client skv args
    rw [hs] at hafter
    rw [hc.curConfig] at hnum
    exact absurd ⟨hafter, hnum⟩ hbefore
  | config cfg =>
    by_cases hadv : Advances skv cfg
    · have heq := next_config_of_advances hadv
      rw [heq] at hafter hnum ⊢
      have hkeep : skv.keepShards cfg s = true := hafter
      refine .inl ⟨cfg, rfl, hnum, hadv, (keepShards_iff.mp hkeep).1, ?_, rfl⟩
      intro key hkey
      show (if skv.keepShards cfg (key2shard key) then skv.shardKVMap key else none) = _
      rw [hkey, if_pos hkeep]
    · rw [next_config_of_not_advances hadv] at hafter hnum
      exact absurd ⟨hafter, hnum⟩ hbefore
  | shards shifts info =>
    have hc := next_shards_sameConfig skv shifts info
    rw [hc.curConfig] at hnum
    rcases foldl_acceptShard_cases (hproper shifts info rfl) skv s with
      ⟨heq, -⟩ | ⟨hno, -, shift, hmem, hconf, hid, hgid, hkv⟩
    · exact absurd ⟨heq.symm.trans hafter, hnum⟩ hbefore
    · refine .inr ⟨shifts, info, rfl, hno, hnum, hgid,
        ⟨shift, hmem, hconf.trans hnum, hid, fun key hkey => ?_⟩,
        next_shards_clientInfo skv shifts info⟩
      refine (hkv key hkey).trans ?_
      have hnone : skv.shardKVMap key = none := by
        by_contra hsome
        obtain ⟨v, hv⟩ := Option.ne_none_iff_exists'.mp hsome
        have hhas := hheld.keys key v hv
        rw [hkey, hno] at hhas
        cases hhas
      rw [hnone, Option.or_none]

/-- A release among the first entries is one of the whole log. -/
theorem Release.of_take {cfg : Config} {j : Nat} (h : Release (commits.take i) p n j cfg) :
    j < i ∧ Release commits p n j cfg ∧ (commits.take i).take j = commits.take j := by
  have hlen : j < (commits.take i).length := (List.getElem?_eq_some_iff.mp h.entry).1
  have hj : j < i := lt_of_lt_of_le hlen (List.length_take_le _ _)
  have htake : (commits.take i).take j = commits.take j := by
    rw [List.take_take, Nat.min_eq_left hj.le]
  refine ⟨hj, ⟨?_, h.num, htake ▸ h.advances⟩, htake⟩
  rw [← h.entry, List.getElem?_take_of_lt hj]

/-- What is in a dock is what the group had of the shard. -/
theorem had_of_makeOutShards {cfg : Config} {shift : ShiftShard}
    (h : skv.makeOutShards cfg s = some shift) :
    skv.shards s = true ∧ ∀ key, key2shard key = s → shift.kvMap key = skv.shardKVMap key := by
  obtain ⟨hout, rfl⟩ := makeOutShards_eq_some.mp h
  exact ⟨(outShards_iff.mp hout).1, fun key hkey => if_pos hkey⟩

/-- A shard that a group keeps from the configuration before is there. -/
theorem Lawful.shards_of_kept (h : Lawful H commits) (hg : g ≠ 0)
    (hcur : (groupAt commits g).curConfig.shards s = g)
    (hlast : (groupAt commits g).lastConfig.shards s = g) :
    (groupAt commits g).shards s = true := by
  induction h with
  | nil => exact absurd hcur.symm hg
  | @concat commits g' op h hg' hop ih =>
    by_cases hgg : g = g'
    swap
    · rw [groupAt_ne _ _ hgg] at hcur hlast ⊢
      exact ih hcur hlast
    · subst hgg
      rw [groupAt_self] at hcur hlast ⊢
      have hgrows := (h.held g).grows op
      have hsame : SameConfig (groupAt commits g) ((groupAt commits g).next op) →
          ((groupAt commits g).next op).shards s = true := by
        intro hc
        rw [hc.curConfig] at hcur
        rw [hc.lastConfig] at hlast
        exact hgrows.shards s (by rw [hc.curConfig]) (ih hcur hlast)
      cases op with
      | client args => exact hsame (next_client _ args).1
      | shards shifts info => exact hsame (next_shards_sameConfig _ shifts info)
      | config cfg =>
        by_cases hadv : Advances (groupAt commits g) cfg
        swap
        · exact hsame (next_config_sameConfig hadv)
        · -- the group moves on only when it has all shards of the configuration before
          rw [next_config_of_advances hadv] at hcur hlast ⊢
          have hhad := isMigrateFinished_iff.mp hadv.2 s (by rw [gid_groupAt]; exact hlast)
          exact keepShards_iff.mpr ⟨hhad, by rw [gid_groupAt]; exact hcur⟩

/-- A group that installs a shard with a SHARDS entry was newly given it. -/
theorem Lawful.given (h : Lawful H commits) {shifts : List ShiftShard} {info : ClientInfo}
    (hi : commits[i]? = some (g, .shards shifts info))
    (hinst : Installs (groupAt (commits.take i) g)
      ((groupAt (commits.take i) g).next (.shards shifts info)) n s) :
    (groupAt (commits.take i) g).shards s = false ∧
      (groupAt (commits.take i) g).curConfig.num = n ∧ H.owner n s = g ∧
      H.owner (n - 1) s ≠ g := by
  obtain ⟨hg, hop⟩ := h.entry hi
  have hlaw := h.take i
  have hheld := hlaw.held g
  obtain ⟨cfg, hcfg, -⟩ | ⟨_, _, -, hno, hnum, hmine, -⟩ := hinst.cases hheld
    fun shifts' info' heq => by cases heq; exact hop.proper hlaw.held
  · cases hcfg
  rw [gid_groupAt] at hmine
  refine ⟨hno, hnum, by rw [← hnum, hheld.owner s, hmine], fun hlast => ?_⟩
  rw [← hnum, ConfigHistory.owner_eq hheld.last] at hlast
  rw [hlaw.shards_of_kept hg hmine hlast] at hno
  cases hno

/-- Where an installed shard comes from: it is one of the empty shards of a first configuration,
or what its owner of the configuration before had when that group moved on. -/
theorem Lawful.installs_from (h : Lawful H commits) (hi : commits[i]? = some (g, op))
    (hinst : Installs (groupAt (commits.take i) g) ((groupAt (commits.take i) g).next op) n s) :
    (op = .shards (firstShards n) {} ∧ H.owner (n - 1) 0 = 0 ∧
      ∀ key, key2shard key = s →
        ((groupAt (commits.take i) g).next op).shardKVMap key = none) ∨
    ∃ j cfg, j ≤ i ∧ Release commits (H.owner (n - 1) s) n j cfg ∧
      (groupAt (commits.take j) (H.owner (n - 1) s)).shards s = true ∧
      (∀ key, key2shard key = s → ((groupAt (commits.take i) g).next op).shardKVMap key =
        (groupAt (commits.take j) (H.owner (n - 1) s)).shardKVMap key) ∧
      (((groupAt (commits.take i) g).next op).clientInfo =
          (groupAt (commits.take j) (H.owner (n - 1) s)).clientInfo ∨
        ((groupAt (commits.take i) g).next op).clientInfo =
          (groupAt (commits.take i) g).clientInfo.merge
            (groupAt (commits.take j) (H.owner (n - 1) s)).clientInfo) := by
  have hlaw := h.take i
  have hheld := hlaw.held
  have hop := (h.entry hi).2
  rcases hinst.cases (hheld g) (fun shifts info heq => by subst heq; exact hop.proper hheld) with
    ⟨cfg, rfl, hnum, hadv, hhas, hkv, hinfo⟩ |
      ⟨shifts, info, rfl, hno, hnum, hgid, ⟨shift, hmem, hconf, hid, hkv⟩, hinfo⟩
  · -- the shard is kept: the owner before is the group itself
    have howner : H.owner (n - 1) s = g := by
      have hn : n - 1 = (groupAt (commits.take i) g).curConfig.num := by
        have := hop.num_eq hadv
        omega
      rw [hn, (hheld g).owner s, (hheld g).mine s hhas, gid_groupAt]
    rw [howner]
    exact .inr ⟨i, cfg, Nat.le_refl i, ⟨hi, hnum, hadv⟩, hhas, hkv, .inl hinfo⟩
  · cases hop with
    | @first k hfirst =>
      obtain ⟨s', -, rfl⟩ := List.mem_map.mp hmem
      obtain rfl : k = n := hconf
      exact .inl ⟨rfl, hfirst, hkv⟩
    | @docked p k _ _ hdocked =>
      obtain ⟨dock, hdock, hshift⟩ := hdocked.dock shift hmem
      obtain rfl : k = n := ((hheld p).shift k dock _ shift hdock hshift).1.symm.trans hconf
      obtain rfl : H.owner (k - 1) s = p := hid ▸ hdocked.owner shift hmem
      obtain ⟨j, cfg, hrel, hmake, hcinfo⟩ := hlaw.release hdock
      obtain ⟨hj, hrelease, htake⟩ := hrel.of_take
      rw [htake] at hmake hcinfo
      rw [hmake, hid] at hshift
      obtain ⟨hhad, hcopy⟩ := had_of_makeOutShards hshift
      refine .inr ⟨j, cfg, hj.le, hrelease, hhad, fun key hkey => ?_, .inr ?_⟩
      · rw [hkv key hkey, hcopy key hkey]
      · rw [hinfo, Option.some.inj (hdocked.info.symm.trans hcinfo)]

/-! ### The chain of owners -/

/-- Group `g` has shard `s` of configuration `n`, or had it and moved on. -/
def Had (H : ConfigHistory) (commits : List (Int × Op)) (g : Int) (n : Nat) (s : Shard) : Prop :=
  H.owner n s = g ∧ (n < (groupAt commits g).curConfig.num ∨
    n = (groupAt commits g).curConfig.num ∧ (groupAt commits g).shards s = true)

theorem Lawful.had_of_shards (h : Lawful H commits) (hs : (groupAt commits g).shards s = true) :
    Had H commits g (groupAt commits g).curConfig.num s := by
  refine ⟨?_, .inr ⟨rfl, hs⟩⟩
  rw [(h.held g).owner s, (h.held g).mine s hs, gid_groupAt]

/-- A group that has moved on had all the shards it was given. -/
theorem Lawful.had_of_advances (h : Lawful H commits) {cfg : Config}
    (hadv : Advances (groupAt commits g) cfg) (howner : H.owner n s = g)
    (hn : n ≤ (groupAt commits g).curConfig.num) : Had H commits g n s := by
  refine ⟨howner, ?_⟩
  rcases Nat.lt_or_eq_of_le hn with hlt | heq
  · exact .inl hlt
  · refine .inr ⟨heq, isMigrateFinished_iff.mp hadv.2 s ?_⟩
    rw [← (h.held g).owner s, ← heq, howner, gid_groupAt]

/-- A group that had a shard installed it at some entry of its log. -/
theorem Lawful.exists_installs (h : Lawful H commits) (hhad : Had H commits g n s) :
    ∃ i op, commits[i]? = some (g, op) ∧
      Installs (groupAt (commits.take i) g) ((groupAt (commits.take i) g).next op) n s := by
  induction h with
  | nil =>
    obtain ⟨-, hlt | ⟨-, hs⟩⟩ := hhad
    · exact absurd hlt (Nat.not_lt_zero n)
    · cases hs
  | @concat commits g' op h hg' hop ih =>
    have hold : Had H commits g n s → ∃ i op', (commits ++ [(g', op)])[i]? = some (g, op') ∧
        Installs (groupAt ((commits ++ [(g', op)]).take i) g)
          ((groupAt ((commits ++ [(g', op)]).take i) g).next op') n s := by
      intro hhad
      obtain ⟨i, op', hi, hinst⟩ := ih hhad
      have hlt : i < commits.length := (List.getElem?_eq_some_iff.mp hi).1
      refine ⟨i, op', ?_, ?_⟩
      · rwa [List.getElem?_append_left hlt]
      · rwa [List.take_append_of_le_length hlt.le]
    by_cases hgg : g = g'
    swap
    · refine hold ?_
      rwa [Had, groupAt_ne _ _ hgg] at hhad
    · subst hgg
      by_cases hbefore : Had H commits g n s
      · exact hold hbefore
      · -- the new entry installs the shard
        refine ⟨commits.length, op, List.getElem?_concat_length, ?_⟩
        rw [List.take_left]
        rw [Had, groupAt_self] at hhad
        obtain ⟨howner, hlt | ⟨heq, hs⟩⟩ := hhad
        · -- a group only moves past configuration `n` when it has all of its shards
          exfalso
          cases op with
          | client args =>
            rw [(next_client _ args).1.curConfig] at hlt
            exact hbefore ⟨howner, .inl hlt⟩
          | shards shifts info =>
            rw [(next_shards_sameConfig _ shifts info).curConfig] at hlt
            exact hbefore ⟨howner, .inl hlt⟩
          | config cfg =>
            by_cases hadv : Advances (groupAt commits g) cfg
            · have hnum := hop.num_eq hadv
              rw [next_config_of_advances hadv] at hlt
              have hlt' : n < cfg.num := hlt
              exact hbefore (h.had_of_advances hadv howner (by omega))
            · rw [(next_config_sameConfig hadv).curConfig] at hlt
              exact hbefore ⟨howner, .inl hlt⟩
        · refine ⟨hs, heq.symm, fun hboth => hbefore ⟨howner, .inr ⟨hboth.2.symm, hboth.1⟩⟩⟩

/-- **A group had a shard only after the owner before it moved on**, or was newly given it in a
configuration that looks like the first one. -/
theorem Lawful.chain (h : Lawful H commits) (hhad : Had H commits g n s) :
    (H.owner (n - 1) 0 = 0 ∧ H.owner (n - 1) s ≠ g) ∨ (H.owner (n - 1) s ≠ 0 ∧
      n ≤ (groupAt commits (H.owner (n - 1) s)).curConfig.num) := by
  obtain ⟨i, op, hi, hinst⟩ := h.exists_installs hhad
  rcases h.installs_from hi hinst with ⟨rfl, hfirst, -⟩ | ⟨j, cfg, -, hrel, -⟩
  · exact .inl ⟨hfirst, (h.given hi hinst).2.2.2⟩
  · refine .inr ⟨(h.entry hrel.entry).1, ?_⟩
    have hstep := (h.grows (j + 1) (H.owner (n - 1) s)).num
    rw [groupAt_take_succ hrel.entry, next_config_of_advances hrel.advances] at hstep
    exact hrel.num ▸ hstep

/-- All owners between two configurations moved on, if none of these gives out the shard and looks
like a first one. -/
theorem Lawful.descend (h : Lawful H commits) (hhad : Had H commits (H.owner m s) m s)
    (howner : H.owner m s ≠ 0) (hn : n < m)
    (hfirst : ∀ k, n < k → k ≤ m → H.owner k s ≠ 0 → H.owner k s ≠ H.owner (k - 1) s →
      H.owner (k - 1) 0 ≠ 0) :
    H.owner n s ≠ 0 ∧ n < (groupAt commits (H.owner n s)).curConfig.num := by
  induction m with
  | zero => exact absurd hn (Nat.not_lt_zero n)
  | succ m ih =>
    have hnext : H.owner m s ≠ 0 ∧ m < (groupAt commits (H.owner m s)).curConfig.num := by
      rcases h.chain hhad with ⟨h0, hnew⟩ | hmoved
      · exact absurd h0 (hfirst (m + 1) hn (Nat.le_refl _) howner hnew.symm)
      · exact hmoved
    rcases Nat.lt_or_eq_of_le (Nat.le_of_lt_succ hn) with hlt | rfl
    · exact ih ⟨rfl, .inl hnext.2⟩ hnext.1 hlt fun k hk hkm => hfirst k hk (hkm.trans m.le_succ)
    · exact hnext

end RaftLabs.ShardKV
