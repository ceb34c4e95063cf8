import RaftLabs.ShardKV.Ownership

/-! What the clients' operations do to a shard, wherever it is.

A shard that some group has ever had is in the hands of one custodian: the group that has it, or
the dock of the group that gave it away, until the next owner installs it. Along the entries of
all logs, in the order in which they took effect, the pairs of the shard are those that the
executed operations leave, and the table that goes with the shard knows every operation that was
executed on it. So no operation is executed twice, whatever groups its copies end up in. -/
namespace RaftLabs.ShardKV
open Lib ShardCtrler

variable {H : ConfigHistory} {commits : List (Int × Op)} {skv : ShardKV} {g p : Int}
variable {n m i j q : Nat} {s : Shard} {op : Op} {args : Args} {x : Int × Op}

/-! ### The table of the clients' requests -/

namespace ClientInfo
variable {info cInfo : ClientInfo} {c r : Nat}

theorem isNew_eq_false : info.isNew c r = false ↔
    r < info.req c ∨ (r = info.req c ∧ (info.result c).err = .ok) := by
  rw [isNew, decide_eq_false_iff_not, not_or, not_and, not_not, Nat.not_lt]
  constructor
  · rintro ⟨hle, hok⟩
    exact (Nat.lt_or_eq_of_le hle).imp_right fun heq => ⟨heq, hok heq⟩
  · rintro (hlt | ⟨heq, hok⟩)
    · exact ⟨hlt.le, fun heq => absurd heq hlt.ne⟩
    · exact ⟨heq.le, fun _ => hok⟩

/-- For each client `merge` takes the request and its result from one of the two tables. -/
theorem merge_cases (cInfo info : ClientInfo) (c : Nat) :
    ((cInfo.merge info).req c = cInfo.req c ∧ (cInfo.merge info).result c = cInfo.result c ∧
      (info.req c < cInfo.req c ∨ (info.req c = cInfo.req c ∧ (cInfo.result c).err = .ok) ∨
        info.req c = 0)) ∨
    ((cInfo.merge info).req c = info.req c ∧ (cInfo.merge info).result c = info.result c ∧
      (cInfo.req c < info.req c ∨ (cInfo.req c = info.req c ∧ (cInfo.result c).err ≠ .ok))) := by
  cases hinfo : info.completedReq c with
  | none =>
    obtain ⟨hreq, hres⟩ := merge_of_none (a := cInfo) hinfo
    exact .inl ⟨by rw [req, hreq, req], hres, .inr (.inr (by rw [req, hinfo, Option.getD_none]))⟩
  | some k =>
    rw [req_of_some hinfo]
    rcases Nat.lt_or_ge (cInfo.req c) k with hlt | hge
    · obtain ⟨hreq, hres⟩ := merge_of_lt hinfo hlt
      exact .inr ⟨req_of_some hreq, hres, .inl hlt⟩
    · by_cases hfail : k = cInfo.req c ∧ (cInfo.result c).err ≠ .ok
      · obtain ⟨hreq, hres⟩ := merge_of_failed hinfo hfail.1 hfail.2
        exact .inr ⟨by rw [req, hreq, hfail.1, req], hres, .inr ⟨hfail.1.symm, hfail.2⟩⟩
      · have hok : k = cInfo.req c → (cInfo.result c).err = .ok := fun heq =>
          not_not.mp fun hne => hfail ⟨heq, hne⟩
        obtain ⟨hreq, hres⟩ := merge_of_ge hinfo hge hok
        exact .inl ⟨by rw [req, hreq, req], hres,
          (Nat.lt_or_eq_of_le hge).imp_right fun heq => .inl ⟨heq, hok heq⟩⟩

/-- Every request that `info` takes for done is done for `info'`. Requests are numbered from 1. -/
def Remembers (info info' : ClientInfo) : Prop :=
  ∀ c r, 0 < r → info.isNew c r = false → info'.isNew c r = false

theorem Remembers.refl (info : ClientInfo) : Remembers info info := fun _ _ _ h => h

/-- A failed attempt overwrites nothing that is done. -/
theorem record_remembers (hnew : info.isNew c r = true) (err : Err) :
    Remembers info (info.record c r err) := by
  intro c' r' _ hdone
  rw [isNew_eq_false] at hdone ⊢
  by_cases hc : c' = c
  · subst hc
    have hnew' : ¬ (r < info.req c' ∨ (r = info.req c' ∧ (info.result c').err = .ok)) := by
      rw [← isNew_eq_false, hnew]
      decide
    rw [(record_self err).1, (record_self err).2]
    left
    by_contra hge
    rcases hdone with hlt | ⟨heq, hok⟩
    · exact hnew' (.inl (by omega))
    · exact hnew' ((Nat.lt_or_eq_of_le (by omega : r ≤ info.req c')).imp_right (⟨·, hok⟩))
  · rwa [(record_of_ne hc err).1, (record_of_ne hc err).2]

theorem merge_remembers_left (cInfo info : ClientInfo) : Remembers cInfo (cInfo.merge info) := by
  intro c r _ hdone
  rw [isNew_eq_false] at hdone ⊢
  rcases merge_cases cInfo info c with ⟨hreq, hres, -⟩ | ⟨hreq, hres, hlt | ⟨heq, hno⟩⟩
  · rwa [hreq, hres]
  · rw [hreq]
    omega
  · rw [hreq, ← heq]
    exact .inl (hdone.resolve_right fun h => hno h.2)

theorem merge_remembers_right (cInfo info : ClientInfo) : Remembers info (cInfo.merge info) := by
  intro c r hr hdone
  rw [isNew_eq_false] at hdone ⊢
  rcases merge_cases cInfo info c with ⟨hreq, hres, hlt | ⟨heq, hok⟩ | hzero⟩ | ⟨hreq, hres, -⟩
  · rw [hreq]
    omega
  · rw [hreq, hres, ← heq]
    exact hdone.imp_right fun h => ⟨h.1, hok⟩
  · omega
  · rwa [hreq, hres]

end ClientInfo

/-! ### Executed operations -/

/-- Entry `i` of all logs is an operation that group `g` executes. -/
structure Executed (commits : List (Int × Op)) (i : Nat) (g : Int) (args : Args) : Prop where
  entry : commits[i]? = some (g, .client args)
  executes : Executes (groupAt (commits.take i) g) args

theorem Executed.lt (h : Executed commits i g args) : i < commits.length :=
  (List.getElem?_eq_some_iff.mp h.entry).1

theorem Executed.concat (h : Executed commits i g args) (x : Int × Op) :
    Executed (commits ++ [x]) i g args := by
  refine ⟨?_, ?_⟩
  · rw [List.getElem?_append_left h.lt]
    exact h.entry
  · rw [List.take_append_of_le_length h.lt.le]
    exact h.executes

theorem Executed.last (hexec : Executes (groupAt commits g) args) :
    Executed (commits ++ [(g, .client args)]) commits.length g args := by
  refine ⟨List.getElem?_concat_length, ?_⟩
  rwa [List.take_left]

theorem Executed.of_concat (h : Executed (commits ++ [x]) i g args) :
    Executed commits i g args ∨
      (i = commits.length ∧ x = (g, .client args) ∧ Executes (groupAt commits g) args) := by
  obtain ⟨hentry, hexec⟩ := h
  rcases Nat.lt_trichotomy i commits.length with hlt | rfl | hgt
  · rw [List.getElem?_append_left hlt] at hentry
    rw [List.take_append_of_le_length hlt.le] at hexec
    exact .inl ⟨hentry, hexec⟩
  · rw [List.getElem?_concat_length, Option.some.injEq] at hentry
    rw [List.take_left] at hexec
    exact .inr ⟨rfl, hentry, hexec⟩
  · rw [List.getElem?_eq_none (by simpa using Nat.succ_le_of_lt hgt)] at hentry
    cases hentry

theorem Executed.take (h : Executed commits i g args) (hi : i < q) :
    Executed (commits.take q) i g args := by
  refine ⟨?_, ?_⟩
  · rw [List.getElem?_take_of_lt hi]
    exact h.entry
  · rw [List.take_take, Nat.min_eq_left hi.le]
    exact h.executes

theorem Executed.of_take (h : Executed (commits.take q) i g args) :
    Executed commits i g args ∧ i < q := by
  have hi : i < q := by
    have := h.lt
    rw [List.length_take] at this
    omega
  refine ⟨⟨?_, ?_⟩, hi⟩
  · rw [← h.entry, List.getElem?_take_of_lt hi]
  · have := h.executes
    rwa [List.take_take, Nat.min_eq_left hi.le] at this

/-! ### What a table says is so -/

/-- A request with result OK was executed, and every request of the table is in a log. -/
structure Recorded (commits : List (Int × Op)) (info : ClientInfo) : Prop where
  done : ∀ c, (info.result c).err = .ok →
    ∃ i g args, Executed commits i g args ∧ args.clientId = c ∧ args.reqNo = info.req c
  seen : ∀ c, info.req c = 0 ∨ ∃ (i : Nat) (g : Int) (args : Args),
    commits[i]? = some (g, .client args) ∧ args.clientId = c ∧ args.reqNo = info.req c

theorem Recorded.empty (commits : List (Int × Op)) : Recorded commits {} where
  done _ h := nomatch h
  seen _ := .inl rfl

theorem Recorded.concat {info : ClientInfo} (h : Recorded commits info) (x : Int × Op) :
    Recorded (commits ++ [x]) info where
  done c hok := by
    obtain ⟨i, g, args, hexec, hargs⟩ := h.done c hok
    exact ⟨i, g, args, hexec.concat x, hargs⟩
  seen c := by
    refine (h.seen c).imp_right fun ⟨i, g, args, hentry, hargs⟩ => ⟨i, g, args, ?_, hargs⟩
    rwa [List.getElem?_append_left (List.getElem?_eq_some_iff.mp hentry).1]

theorem Recorded.merge {cInfo info : ClientInfo} (hc : Recorded commits cInfo)
    (h : Recorded commits info) : Recorded commits (cInfo.merge info) where
  done c := by
    rcases ClientInfo.merge_cases cInfo info c with ⟨hreq, hres, -⟩ | ⟨hreq, hres, -⟩ <;>
      rw [hreq, hres]
    · exact hc.done c
    · exact h.done c
  seen c := by
    rcases ClientInfo.merge_cases cInfo info c with ⟨hreq, -, -⟩ | ⟨hreq, -, -⟩ <;> rw [hreq]
    · exact hc.seen c
    · exact h.seen c

theorem Recorded.client (h : Recorded commits (groupAt commits g).clientInfo) (args : Args) :
    Recorded (commits ++ [(g, .client args)])
      ((groupAt commits g).next (.client args)).clientInfo := by
  have hold := h.concat (g, .client args)
  rw [next_client_clientInfo]
  split
  swap
  · exact hold
  · rename_i hnew
    refine ⟨fun c => ?_, fun c => ?_⟩ <;> by_cases hc : c = args.clientId
    · subst hc
      rw [(ClientInfo.record_self _).1, (ClientInfo.record_self _).2]
      exact fun hok => ⟨_, g, args, .last ⟨hnew, hok⟩, rfl, rfl⟩
    · rw [(ClientInfo.record_of_ne hc _).1, (ClientInfo.record_of_ne hc _).2]
      exact hold.done c
    · subst hc
      rw [(ClientInfo.record_self _).1]
      exact .inr ⟨_, g, args, List.getElem?_concat_length, rfl, rfl⟩
    · rw [(ClientInfo.record_of_ne hc _).1]
      exact hold.seen c

/-- **The tables of all groups tell the truth**, and so do the copies in their docks. -/
theorem Lawful.recorded (h : Lawful H commits) (g : Int) :
    Recorded commits (groupAt commits g).clientInfo ∧
      ∀ n info, (groupAt commits g).config2ClientInfo n = some info → Recorded commits info := by
  induction h generalizing g with
  | nil => exact ⟨Recorded.empty _, fun _ _ h => nomatch h⟩
  | @concat commits g' op h hg hop ih =>
    obtain ⟨hcur, hcopies⟩ := ih g
    have hcopies' := fun n info hn => (hcopies n info hn).concat (g', op)
    by_cases hgg : g = g'
    swap
    · rw [groupAt_ne _ _ hgg]
      exact ⟨hcur.concat _, hcopies'⟩
    · subst hgg
      rw [groupAt_self]
      cases op with
      | client args =>
        rw [(next_client _ args).1.config2ClientInfo]
        exact ⟨hcur.client args, hcopies'⟩
      | shards shifts info =>
        rw [(next_shards_sameConfig _ shifts info).config2ClientInfo, next_shards_clientInfo]
        refine ⟨?_, hcopies'⟩
        have hinfo : Recorded commits info := by
          cases hop with
          | first => exact Recorded.empty _
          | @docked p n _ _ hdocked => exact (ih p).2 n info hdocked.info
        exact (hcur.concat _).merge (hinfo.concat _)
      | config cfg =>
        rw [next_config_clientInfo]
        refine ⟨hcur.concat _, fun n info hn => ?_⟩
        by_cases hadv : Advances (groupAt commits g) cfg
        swap
        · rw [(next_config_sameConfig hadv).config2ClientInfo] at hn
          exact hcopies' n info hn
        · rw [next_config_of_advances hadv] at hn
          by_cases hnum : n = cfg.num
          · have hinfo : (groupAt commits g).clientInfo = info := by
              simpa [advanced, hnum] using hn
            rw [← hinfo]
            exact hcur.concat _
          · exact hcopies' n info (by simpa [advanced, Function.update_of_ne hnum] using hn)

/-! ### The custodian of a shard -/

/-- Where shard `s` is, with its pairs and the table that goes with it. -/
inductive Custodian (H : ConfigHistory) (commits : List (Int × Op)) (s : Shard) :
    (String → Option String) → ClientInfo → Prop
  | held {g : Int} (shards : (groupAt commits g).shards s = true) :
      Custodian H commits s (groupAt commits g).shardKVMap (groupAt commits g).clientInfo
  | docked {p : Int} {n : Nat} {dock : Shard → Option ShiftShard} {shift : ShiftShard}
      {info : ClientInfo} (hdock : (groupAt commits p).outShardsDock n = some dock)
      (hshift : dock s = some shift) (hinfo : (groupAt commits p).config2ClientInfo n = some info)
      (hwaits : ¬ Had H commits (H.owner n s) n s) : Custodian H commits s shift.kvMap info

theorem Had.concat (h : Had H commits g n s) (hlaw : Lawful H (commits ++ [x])) :
    Had H (commits ++ [x]) g n s := by
  have hgrows := hlaw.grows commits.length g
  rw [List.take_left] at hgrows
  obtain ⟨howner, hlt | ⟨heq, hs⟩⟩ := h
  · exact ⟨howner, .inl (hlt.trans_le hgrows.num)⟩
  · refine ⟨howner, (Nat.lt_or_eq_of_le (heq ▸ hgrows.num)).imp_right fun hsame => ?_⟩
    exact ⟨hsame, hgrows.shards s (hsame.symm.trans heq) hs⟩

/-- What is in the dock of configuration `n` was given to the group by the one before. -/
theorem Lawful.dock_owner (h : Lawful H commits) {dock : Shard → Option ShiftShard}
    {shift : ShiftShard} (hdock : (groupAt commits p).outShardsDock n = some dock)
    (hshift : dock s = some shift) :
    1 < n ∧ H.owner (n - 1) s = p ∧ n ≤ (groupAt commits p).curConfig.num := by
  obtain ⟨i, cfg, hrel, hmake, -⟩ := h.release hdock
  have hlaw := h.take i
  have hentry := h.entry hrel.entry
  have hnum := hentry.2.num_eq hrel.advances
  have hhas := (had_of_makeOutShards (hmake ▸ hshift)).1
  have hpos := hlaw.num_pos_of_shards hentry.1 hhas
  have hn := hrel.num
  refine ⟨by omega, ?_, ((h.held p).dock n dock hdock).1⟩
  rw [show n - 1 = (groupAt (commits.take i) p).curConfig.num by omega]
  exact (hlaw.had_of_shards hhas).1

/-- **A group that has a shard is its only custodian.** -/
theorem Custodian.eq_of_shards {kv : String → Option String} {info : ClientInfo}
    (hc : Custodian H commits s kv info) (h : Lawful H commits) (hfull : H.Full)
    (hs : (groupAt commits g).shards s = true) :
    kv = (groupAt commits g).shardKVMap ∧ info = (groupAt commits g).clientInfo := by
  cases hc with
  | held hs' =>
    cases h.shards_exclusive hfull hs hs'
    exact ⟨rfl, rfl⟩
  | @docked p n dock shift info hdock hshift hinfo hwaits =>
    exfalso
    obtain ⟨hn, howner, hnum⟩ := h.dock_owner hdock hshift
    have hhad := h.had_of_shards hs
    have hpos := h.num_pos_of_shards (h.gid_ne_zero_of_shards hs) hs
    rcases Nat.lt_trichotomy (groupAt commits g).curConfig.num (n - 1) with hlt | heq | hgt
    · -- the group that docked the shard had it after `g`
      have hhad' : Had H commits p (n - 1) s := ⟨howner, .inl (by omega)⟩
      have hmoved := h.moved_on hfull hhad' hpos hlt
      rw [hhad.1] at hmoved
      exact absurd hmoved (Nat.lt_irrefl _)
    · have hpg : p = g := by rw [← howner, ← heq, hhad.1]
      subst hpg
      omega
    · rcases Nat.lt_or_eq_of_le (show n ≤ (groupAt commits g).curConfig.num by omega) with hlt | heq
      · exact hwaits ⟨rfl, .inl (h.moved_on hfull hhad (by omega) hlt)⟩
      · rw [← heq] at hhad
        exact hwaits (hhad.1.symm ▸ hhad)

/-! ### What an entry does to the custodian -/

/-- Entry `op` of group `g` is an operation on shard `s` that is executed. -/
def Touches (skv : ShardKV) (op : Op) (s : Shard) : Prop :=
  ∃ args, op = .client args ∧ Executes skv args ∧ args.shardId = s

/-- Where the pairs and the table of a shard come from: they are what they were, or an operation
is executed on them, or the shard is new. -/
inductive Passes (H : ConfigHistory) (commits : List (Int × Op)) (g : Int) (op : Op) (s : Shard)
    (kv' : String → Option String) (info' : ClientInfo) : Prop
  | kept {kv : String → Option String} {info : ClientInfo} (custodian : Custodian H commits s kv info)
      (same : ∀ key, key2shard key = s → kv' key = kv key)
      (remembers : ClientInfo.Remembers info info') (idle : ¬ Touches (groupAt commits g) op s)
  | executed {args : Args} (client : op = .client args) (executes : Executes (groupAt commits g) args)
      (shardId : args.shardId = s) (write : kv' = write (groupAt commits g).shardKVMap args)
      (record : info' = (groupAt commits g).clientInfo.record args.clientId args.reqNo .ok)
  | first (empty : ∀ key, key2shard key = s → kv' key = none)
      (fresh : ∀ i g args, Executed commits i g args → args.shardId ≠ s)
      (idle : ¬ Touches (groupAt commits g) op s)

section Passing
variable {kv' : String → Option String} {info' : ClientInfo}
variable (h : Lawful H commits) (hfull : H.Full)

include h hfull

/-- No operation is executed on a shard before configuration 1 gives it to a group. -/
theorem Lawful.fresh_of_first (hn : (groupAt commits g).curConfig.num = 1)
    (howner : H.owner 1 s = g) (hno : (groupAt commits g).shards s = false) :
    ∀ i g' args, Executed commits i g' args → args.shardId ≠ s := by
  rintro i g' args hexec rfl
  have hlaw := h.take i
  have hhas := (opErr_eq_ok.mp hexec.executes.2).2
  have hhad := hlaw.had_of_shards hhas
  have hpos := hlaw.num_pos_of_shards (h.entry hexec.entry).1 hhas
  rcases Nat.lt_or_eq_of_le hpos with hlt | heq
  · have hmoved := hlaw.moved_on hfull hhad Nat.one_pos hlt
    rw [howner] at hmoved
    have := (h.grows i g).num
    omega
  · have hgg : g = g' := by
      rw [← howner, ← hhad.1, ← heq]
    subst hgg
    have hshards := (h.grows i g).shards args.shardId (by omega) hhas
    rw [hno] at hshards
    cases hshards

omit h hfull in
/-- A client's operation on another shard. -/
theorem passes_client {args : Args} (hop : OpLawful H commits g (.client args))
    (hidle : ¬ Touches (groupAt commits g) (.client args) s)
    (hs : ((groupAt commits g).next (.client args)).shards s = true) :
    Passes H commits g (.client args) s ((groupAt commits g).next (.client args)).shardKVMap
      ((groupAt commits g).next (.client args)).clientInfo := by
  rw [(next_client _ args).2] at hs
  refine .kept (.held hs) (fun key hkey => ?_) ?_ hidle
  · rw [next_client_shardKVMap]
    split
    · rename_i hexec
      cases hop with
      | client hargs =>
        refine write_of_ne fun heq => hidle ⟨args, rfl, hexec, ?_⟩
        rw [hargs, ← heq, hkey]
    · rfl
  · rw [next_client_clientInfo]
    split
    · rename_i hnew
      exact ClientInfo.record_remembers hnew _
    · exact ClientInfo.Remembers.refl _

omit h hfull in
/-- A new configuration that leaves the shard with the group. -/
theorem passes_config {cfg : Config} (hidle : ¬ Touches (groupAt commits g) (.config cfg) s)
    (hs : ((groupAt commits g).next (.config cfg)).shards s = true) :
    Passes H commits g (.config cfg) s ((groupAt commits g).next (.config cfg)).shardKVMap
      ((groupAt commits g).next (.config cfg)).clientInfo := by
  rw [next_config_clientInfo]
  by_cases hadv : Advances (groupAt commits g) cfg
  · rw [next_config_of_advances hadv] at hs ⊢
    have hkeep : (groupAt commits g).keepShards cfg s = true := hs
    refine .kept (.held (keepShards_iff.mp hkeep).1) (fun key hkey => ?_) (ClientInfo.Remembers.refl _) hidle
    subst hkey
    exact if_pos hkeep
  · rw [next_config_of_not_advances hadv] at hs ⊢
    exact .kept (.held hs) (fun _ _ => rfl) (ClientInfo.Remembers.refl _) hidle

/-- The shard is installed by this entry. -/
theorem Lawful.passes_installed {shifts : List ShiftShard} {info : ClientInfo} (hg : g ≠ 0)
    (hop : OpLawful H commits g (.shards shifts info))
    (hidle : ¬ Touches (groupAt commits g) (.shards shifts info) s)
    (hbefore : (groupAt commits g).shards s ≠ true)
    (hs : ((groupAt commits g).next (.shards shifts info)).shards s = true) :
    Passes H commits g (.shards shifts info) s
      ((groupAt commits g).next (.shards shifts info)).shardKVMap
      ((groupAt commits g).next (.shards shifts info)).clientInfo := by
  have hinst : Installs (groupAt commits g) ((groupAt commits g).next (.shards shifts info))
      (groupAt commits g).curConfig.num s :=
    ⟨hs, congrArg Config.num (next_shards_sameConfig _ shifts info).curConfig,
      fun hboth => hbefore hboth.1⟩
  have hproper := hop.proper h.held
  rcases hinst.cases (h.held g) (fun _ _ heq => by cases heq; exact hproper) with
    ⟨cfg, heq, -⟩ | ⟨shifts', info', heq, hno, -, hgid, ⟨shift, hmem, hnum, hid, hkv⟩, hinfo⟩
  · cases heq
  cases heq
  have howner : H.owner (groupAt commits g).curConfig.num s = g := by
    rw [(h.held g).owner s, hgid, gid_groupAt]
  cases hop with
  | @first n hfirst =>
    obtain ⟨s', -, rfl⟩ := List.mem_map.mp hmem
    obtain rfl : n = (groupAt commits g).curConfig.num := hnum
    have hpos := ConfigHistory.pos_of_owner (howner.trans_ne hg)
    have hone := hfull.eq_one hpos ((h.held g).known _ (Nat.sub_le _ _)) hfirst
    exact .first hkv (h.fresh_of_first hfull hone (hone ▸ howner) hno) hidle
  | @docked p n _ _ hdocked =>
    obtain ⟨dock, hdock, hshift⟩ := hdocked.dock shift hmem
    obtain rfl : n = (groupAt commits g).curConfig.num :=
      ((h.held p).shift n dock _ shift hdock hshift).1.symm.trans hnum
    rw [hid] at hshift
    refine .kept (.docked hdock hshift hdocked.info fun hhad => ?_) hkv ?_ hidle
    · rw [howner] at hhad
      rcases hhad.2 with hlt | ⟨-, hyes⟩
      · exact Nat.lt_irrefl _ hlt
      · exact hbefore hyes
    · rw [hinfo]
      exact ClientInfo.merge_remembers_right _ _

/-- A group that has a shard after an entry which executes no operation on it. -/
theorem Lawful.passes_held (hg : g ≠ 0) (hop : OpLawful H commits g op)
    (hidle : ¬ Touches (groupAt commits g) op s)
    (hs : ((groupAt commits g).next op).shards s = true) :
    Passes H commits g op s ((groupAt commits g).next op).shardKVMap
      ((groupAt commits g).next op).clientInfo := by
  cases op with
  | client args => exact passes_client hop hidle hs
  | config cfg => exact passes_config hidle hs
  | shards shifts info =>
    by_cases hbefore : (groupAt commits g).shards s = true
    · have hproper := hop.proper h.held
      rcases foldl_acceptShard_cases hproper (groupAt commits g) s with ⟨-, hkv⟩ | ⟨hno, -⟩
      · refine .kept (.held hbefore) hkv ?_ hidle
        rw [next_shards_clientInfo]
        exact ClientInfo.merge_remembers_left _ _
      · rw [hbefore] at hno
        cases hno
    · exact h.passes_installed hfull hg hop hidle hbefore hs

omit h hfull in
/-- A group that has just put a shard into a dock had it before. -/
theorem passes_docked {dock : Shard → Option ShiftShard} {shift : ShiftShard}
    {info : ClientInfo} (hidle : ¬ Touches (groupAt commits g) op s)
    (hdock : ((groupAt commits g).next op).outShardsDock n = some dock) (hshift : dock s = some shift)
    (hinfo : ((groupAt commits g).next op).config2ClientInfo n = some info)
    (hwaits : ¬ Had H commits (H.owner n s) n s) :
    Passes H commits g op s shift.kvMap info := by
  have hold : SameConfig (groupAt commits g) ((groupAt commits g).next op) →
      Passes H commits g op s shift.kvMap info := by
    intro hc
    rw [hc.outShardsDock] at hdock
    rw [hc.config2ClientInfo] at hinfo
    exact .kept (.docked hdock hshift hinfo hwaits) (fun _ _ => rfl)
      (ClientInfo.Remembers.refl _) hidle
  cases op with
  | client args => exact hold (next_client _ args).1
  | shards shifts info => exact hold (next_shards_sameConfig _ shifts info)
  | config cfg =>
    by_cases hadv : Advances (groupAt commits g) cfg
    swap
    · exact hold (next_config_sameConfig hadv)
    rw [next_config_of_advances hadv] at hdock hinfo
    by_cases hn : n = cfg.num
    · subst hn
      obtain rfl : (groupAt commits g).makeOutShards cfg = dock := by
        simpa [advanced] using hdock
      obtain rfl : (groupAt commits g).clientInfo = info := by
        simpa [advanced] using hinfo
      obtain ⟨hhad, hcopy⟩ := had_of_makeOutShards hshift
      exact .kept (.held hhad) hcopy (ClientInfo.Remembers.refl _) hidle
    · have hdock' : (groupAt commits g).outShardsDock n = some dock := by
        simpa [advanced, Function.update_of_ne hn] using hdock
      have hinfo' : (groupAt commits g).config2ClientInfo n = some info := by
        simpa [advanced, Function.update_of_ne hn] using hinfo
      exact .kept (.docked hdock' hshift hinfo' hwaits) (fun _ _ => rfl)
        (ClientInfo.Remembers.refl _) hidle

/-- **What one entry of some group's log does to the pairs and the table of a shard.** -/
theorem Lawful.passes (hg : g ≠ 0) (hop : OpLawful H commits g op)
    (hc : Custodian H (commits ++ [(g, op)]) s kv' info') : Passes H commits g op s kv' info' := by
  have hlaw := h.concat hg hop
  by_cases htouch : Touches (groupAt commits g) op s
  · obtain ⟨args, rfl, hexec, rfl⟩ := htouch
    have hs : (groupAt (commits ++ [(g, .client args)]) g).shards args.shardId = true := by
      rw [groupAt_self, (next_client _ args).2]
      exact (opErr_eq_ok.mp hexec.2).2
    obtain ⟨rfl, rfl⟩ := hc.eq_of_shards hlaw hfull hs
    refine .executed rfl hexec rfl ?_ ?_ <;> rw [groupAt_self]
    · rw [next_client_shardKVMap, if_pos hexec]
    · rw [next_client_clientInfo, if_pos hexec.1, hexec.2]
  · cases hc with
    | @held g' hs =>
      by_cases hgg : g' = g
      · subst hgg
        rw [groupAt_self] at hs ⊢
        exact h.passes_held hfull hg hop htouch hs
      · rw [groupAt_ne _ _ hgg] at hs ⊢
        exact .kept (.held hs) (fun _ _ => rfl) (ClientInfo.Remembers.refl _) htouch
    | @docked p n dock shift info hdock hshift hinfo hwaits =>
      have hwaits' : ¬ Had H commits (H.owner n s) n s := fun hhad => hwaits (hhad.concat hlaw)
      by_cases hpg : p = g
      · subst hpg
        rw [groupAt_self] at hdock hinfo
        exact passes_docked htouch hdock hshift hinfo hwaits'
      · rw [groupAt_ne _ _ hpg] at hdock hinfo
        exact .kept (.docked hdock hshift hinfo hwaits') (fun _ _ => rfl)
          (ClientInfo.Remembers.refl _) htouch

end Passing

/-! ### The map that the executed operations leave -/

def Args.request : Args → Request
  | .get args => .get args.key
  | .putAppend args => .putAppend args.op args.key args.value

/-- The map that the service implements. -/
def mapObject : Object (String → String) Request String where
  init := fun _ => ""
  step kvMap
    | .get key => (kvMap, kvMap key)
    | .putAppend .put key value => (Function.update kvMap key value, "")
    | .putAppend .append key value => (Function.update kvMap key (kvMap key ++ value), "")

/-- The update that an entry is for the clients, if it is one that takes effect. -/
def slot (skv : ShardKV) : Op → Option (Operation CallId Request String)
  | .client (.putAppend args) =>
    if Executes skv (.putAppend args) then
      some ⟨(args.clientId, args.reqNo), .putAppend args.op args.key args.value, ""⟩
    else none
  | _ => none

/-- The updates of all logs in the order in which they take effect. -/
def slots (commits : List (Int × Op)) : List (Option (Operation CallId Request String)) :=
  commits.zipIdx.map fun e => slot (groupAt (commits.take e.2) e.1.1) e.1.2

theorem slots_getElem? (commits : List (Int × Op)) (i : Nat) :
    (slots commits)[i]? = commits[i]?.map fun e => slot (groupAt (commits.take i) e.1) e.2 := by
  simp [slots, List.getElem?_zipIdx, Option.map_map, Function.comp_def]

theorem slots_length (commits : List (Int × Op)) : (slots commits).length = commits.length := by
  simp [slots]

theorem slots_take (commits : List (Int × Op)) (q : Nat) :
    slots (commits.take q) = (slots commits).take q := by
  refine List.ext_getElem? fun i => ?_
  rcases Nat.lt_or_ge i q with hi | hi
  · rw [List.getElem?_take_of_lt hi, slots_getElem?, slots_getElem?, List.getElem?_take_of_lt hi,
      List.take_take, Nat.min_eq_left hi.le]
  · rw [List.getElem?_eq_none, List.getElem?_eq_none] <;>
      simp [slots_length, hi]

theorem slots_concat (commits : List (Int × Op)) (g : Int) (op : Op) :
    slots (commits ++ [(g, op)]) = slots commits ++ [slot (groupAt commits g) op] := by
  refine List.ext_getElem? fun i => ?_
  rcases Nat.lt_trichotomy i commits.length with hi | rfl | hi
  · rw [slots_getElem?, List.getElem?_append_left hi, List.take_append_of_le_length hi.le,
      List.getElem?_append_left (by rwa [slots_length]), slots_getElem?]
  · rw [slots_getElem?, List.getElem?_concat_length, List.take_left, ← slots_length,
      List.getElem?_concat_length]
    rfl
  · rw [List.getElem?_eq_none, List.getElem?_eq_none] <;> simp [slots_length] <;> omega

/-- A slot holds an operation that is executed. -/
theorem slot_eq_some {u : Operation CallId Request String} (h : slot skv op = some u) :
    ∃ args, op = .client args ∧ Executes skv args ∧
      u = ⟨(args.clientId, args.reqNo), args.request, ""⟩ ∧ ∃ args', args = .putAppend args' := by
  cases op with
  | config | shards => cases h
  | client args =>
    cases args with
    | get args => cases h
    | putAppend args =>
      obtain ⟨hexec, heq⟩ := Option.ite_none_right_eq_some.mp h
      cases heq
      exact ⟨_, rfl, hexec, rfl, args, rfl⟩

theorem slot_executed {u : Operation CallId Request String}
    (hi : (slots commits)[i]? = some (some u)) :
    ∃ g args, Executed commits i g args ∧ u = ⟨(args.clientId, args.reqNo), args.request, ""⟩ ∧
      ∃ args', args = .putAppend args' := by
  rw [slots_getElem?] at hi
  obtain ⟨⟨g, op⟩, hop, hslot⟩ := Option.map_eq_some_iff.mp hi
  obtain ⟨args, rfl, hexec, rfl, hup⟩ := slot_eq_some hslot
  exact ⟨g, args, ⟨hop, hexec⟩, rfl, hup⟩

/-- An update returns nothing. -/
theorem step_putAppend (kvMap : String → String) (op : PutAppendKind) (key value : String) :
    (mapObject.step kvMap (.putAppend op key value)).2 = "" := by
  cases op <;> rfl

theorem legal_slots (commits : List (Int × Op)) :
    mapObject.Legal mapObject.init (slots commits).reduceOption := by
  refine Object.legal_of_outputs fun u hu kvMap => ?_
  obtain ⟨i, hi⟩ := List.mem_iff_getElem?.mp (List.reduceOption_mem_iff.mp hu)
  obtain ⟨_, _, -, rfl, args, rfl⟩ := slot_executed hi
  exact step_putAppend kvMap _ _ _

/-- What all keys have as values after the executed operations. -/
def values (commits : List (Int × Op)) : String → String :=
  mapObject.run mapObject.init (slots commits).reduceOption

theorem values_concat (commits : List (Int × Op)) (g : Int) (op : Op) :
    values (commits ++ [(g, op)]) =
      mapObject.run (values commits) (slot (groupAt commits g) op).toList := by
  rw [values, slots_concat, List.reduceOption_append, Object.run_append, values]
  cases slot (groupAt commits g) op <;> rfl

/-- An operation leaves other keys alone. -/
theorem step_of_ne {kvMap : String → String} {request : Request} {key : String}
    (h : request.key ≠ key) : (mapObject.step kvMap request).1 key = kvMap key := by
  cases request with
  | get => rfl
  | putAppend kind k v => cases kind <;> exact Function.update_of_ne (Ne.symm h) _ _

theorem request_key (args : Args) : args.request.key = args.key := by
  cases args <;> rfl

/-- An entry that executes no operation on a shard leaves the keys of the shard alone. -/
theorem values_concat_of_idle (hop : OpLawful H commits g op)
    (hidle : ¬ Touches (groupAt commits g) op s) {key : String} (hkey : key2shard key = s) :
    values (commits ++ [(g, op)]) key = values commits key := by
  rw [values_concat]
  cases hslot : slot (groupAt commits g) op with
  | none => rfl
  | some u =>
    obtain ⟨args, rfl, hexec, rfl, -⟩ := slot_eq_some hslot
    cases hop with
    | client hargs =>
      refine step_of_ne fun heq => hidle ⟨args, rfl, hexec, ?_⟩
      rw [hargs, ← request_key, heq, hkey]

/-- An operation that is executed does to the map what it does to the pairs of its group. -/
theorem values_concat_of_executes (hexec : Executes (groupAt commits g) args) :
    values (commits ++ [(g, .client args)]) = (mapObject.step (values commits) args.request).1 := by
  rw [values_concat]
  cases args with
  | get args => rfl
  | putAppend args => rw [slot, if_pos hexec]; rfl

theorem write_step {kv : String → Option String} {kvMap : String → String} {key : String}
    (h : (kv key).getD "" = kvMap key) :
    (write kv args key).getD "" = (mapObject.step kvMap args.request).1 key := by
  by_cases hkey : key = args.key
  · cases args with
    | get args => exact h
    | putAppend args =>
      obtain rfl : key = args.key := hkey
      cases hkind : args.op <;> simp [write, Args.request, mapObject, hkind, h]
  · rw [write_of_ne hkey, step_of_ne (by rw [request_key]; exact Ne.symm hkey), h]

/-- Keys of a shard on which nothing was executed have no value. -/
theorem values_of_fresh (h : Lawful H commits)
    (hfresh : ∀ i g args, Executed commits i g args → args.shardId ≠ s) {key : String}
    (hkey : key2shard key = s) : values commits key = "" := by
  induction h with
  | nil => rfl
  | @concat commits g op h hg hop ih =>
    rw [values_concat_of_idle hop ?_ hkey]
    · exact ih fun i g args hexec => hfresh i g args (hexec.concat _)
    · rintro ⟨args, rfl, hexec, hs⟩
      exact hfresh _ g args (.last hexec) hs

/-! ### Once and for all groups -/

/-- The pairs of shard `s` and the table that goes with it, against all executed operations. -/
structure Kept (commits : List (Int × Op)) (s : Shard) (kv : String → Option String)
    (info : ClientInfo) : Prop where
  value : ∀ key, key2shard key = s → (kv key).getD "" = values commits key
  known : ∀ i g args, Executed commits i g args → args.shardId = s → 0 < args.reqNo →
    info.isNew args.clientId args.reqNo = false

/-- **Every custodian of a shard has what the executed operations left, and knows them all.** -/
theorem Lawful.kept (h : Lawful H commits) (hfull : H.Full) {kv : String → Option String}
    {info : ClientInfo} (hc : Custodian H commits s kv info) : Kept commits s kv info := by
  induction h generalizing kv info with
  | nil =>
    cases hc with
    | held hs => cases hs
    | docked hdock => cases hdock
  | @concat commits g op h hg hop ih =>
    cases h.passes hfull hg hop hc with
    | @kept kv₀ info₀ hc₀ hsame hrem hidle =>
      obtain ⟨hvalue, hknown⟩ := ih hc₀
      refine ⟨fun key hkey => ?_, fun i g' args hexec hs hpos => ?_⟩
      · rw [hsame key hkey, values_concat_of_idle hop hidle hkey]
        exact hvalue key hkey
      · rcases hexec.of_concat with hold | ⟨-, heq, hnew⟩
        · exact hrem _ _ hpos (hknown i g' args hold hs hpos)
        · cases heq
          exact absurd ⟨args, rfl, hnew, hs⟩ hidle
    | @executed args hclient hexec hshard hwrite hrecord =>
      subst hclient hwrite hrecord
      obtain ⟨hvalue, hknown⟩ := ih (.held (hshard ▸ (opErr_eq_ok.mp hexec.2).2))
      refine ⟨fun key hkey => ?_, fun i g' args' hexec' hs hpos => ?_⟩
      · rw [values_concat_of_executes hexec]
        exact write_step (hvalue key hkey)
      · rcases hexec'.of_concat with hold | ⟨-, heq, -⟩
        · exact ClientInfo.record_remembers hexec.1 _ _ _ hpos (hknown i g' args' hold hs hpos)
        · cases heq
          exact ClientInfo.isNew_eq_false.mpr (.inr
            ⟨(ClientInfo.record_self _).1.symm, (ClientInfo.record_self _).2⟩)
    | first hempty hfresh hidle =>
      refine ⟨fun key hkey => ?_, fun i g' args hexec hs hpos => ?_⟩
      · rw [hempty key hkey, values_concat_of_idle hop hidle hkey, values_of_fresh h hfresh hkey]
        rfl
      · rcases hexec.of_concat with hold | ⟨-, heq, hnew⟩
        · exact absurd hs (hfresh i g' args hold)
        · cases heq
          exact absurd ⟨args, rfl, hnew, hs⟩ hidle

/-- **A request is executed at most once**, over all groups together. -/
theorem Lawful.executed_unique (h : Lawful H commits) (hfull : H.Full) {args' : Args} {g' : Int}
    (hi : Executed commits i g args) (hj : Executed commits j g' args')
    (hc : args.clientId = args'.clientId) (hr : args.reqNo = args'.reqNo)
    (hs : args.shardId = args'.shardId) (hpos : 0 < args.reqNo) : i = j := by
  have hlater : ∀ {i j g g' args args'}, Executed commits i g args → Executed commits j g' args' →
      args.clientId = args'.clientId → args.reqNo = args'.reqNo → args.shardId = args'.shardId →
      0 < args.reqNo → ¬ i < j := by
    intro i j g g' args args' hi hj hc hr hs hpos hij
    -- the group that executes the second copy has the shard and a table that knows the first
    have hkept := (h.take j).kept hfull (.held (opErr_eq_ok.mp hj.executes.2).2)
    have hdone := hkept.known i g args (hi.take hij) hs hpos
    rw [hc, hr, hj.executes.1] at hdone
    cases hdone
  exact Nat.le_antisymm
    (Nat.not_lt.mp (hlater hj hi hc.symm hr.symm hs.symm (hr ▸ hpos)))
    (Nat.not_lt.mp (hlater hi hj hc hr hs hpos))

end RaftLabs.ShardKV
