import Mathlib.Algebra.GroupWithZero.Nat
import Mathlib.Data.Fintype.Basic
import Mathlib.Data.Int.Order.Basic
import Mathlib.Data.List.FinRange
import Mathlib.Data.List.Sort
import RaftLabs.Lib.GoMap
import RaftLabs.Lib.Transition

/-! The shard controller's configurations and the operations that change them.

Every `range` over a map takes its order from an argument, one order for each loop of an
operation. `sort.Slice` sorts distinct elements by a total order, so its result does not
depend on the algorithm. A function that can panic returns `none` when it does. -/
namespace RaftLabs.ShardCtrler
open Lib

/-- `NShards`. -/
abbrev nShards : Nat := 10

abbrev Shard := Fin nShards

/-- Shard 0, of which the code asks whether it is given out, is written as a numeral. -/
instance neZero_nShards : NeZero nShards := ⟨Nat.succ_ne_zero 9⟩

/-- An assignment of shards to groups. -/
structure Config where
  num : Nat := 0
  shards : Shard → Int := fun _ => 0
  groups : GoMap Int (List String) := .empty
deriving DecidableEq

/-- The orders of the loops over maps that one operation runs. -/
structure Orders where
  /-- `deepCopy`, over the groups. -/
  copy : RangeOrder Int
  /-- `doJoin` and `initConfifg`, over the new groups. -/
  servers : RangeOrder Int
  /-- `doLeave`, over the remaining owners. -/
  counts : RangeOrder Int
  /-- `rebalanceConfig`, over the owners. -/
  owners : RangeOrder Int
  /-- `rebalanceConfig`, over the groups. -/
  groups : RangeOrder Int
  /-- `rebalanceConfig`, over the new owners. -/
  assign : RangeOrder Int

/-- The number is not copied. -/
def deepCopy (order : RangeOrder Int) (cfg : Config) : Config where
  shards := cfg.shards
  groups := (order.list cfg.groups.keys).foldl
    (fun groups key => groups.set key (groups.getD key [] ++ cfg.groups.getD key [])) .empty

def initConfifg (order : RangeOrder Int) (cfg : Config) (servers : GoMap Int (List String)) :
    Option Config :=
  let gids := (order.list servers.keys).insertionSort (· ≤ ·)
  if h : 0 < gids.length then
    some { cfg with
      groups := servers
      shards := fun i => gids.get ⟨i % gids.length, Nat.mod_lt i h⟩ }
  else none

/-! ### Rebalancing -/

structure GidPair where
  gid : Int
  count : Nat
deriving DecidableEq, Repr

/-- The order of `sort.Slice`: by count, then by gid. -/
def GidPair.le (a b : GidPair) : Prop := a.count < b.count ∨ (a.count = b.count ∧ a.gid ≤ b.gid)

instance : DecidableRel GidPair.le := fun a b => by unfold GidPair.le; infer_instance

/-- `gid2shards`: the shards of every owner, in ascending order. -/
def gid2shards (shards : Shard → Int) : GoMap Int (List Shard) :=
  (List.finRange nShards).foldl
    (fun m s => m.set (shards s) (m.getD (shards s) [] ++ [s])) .empty

/-- The owners and the groups that own nothing yet, least loaded first. -/
def sortedGids (orders : Orders) (cfg : Config) (m : GoMap Int (List Shard)) : List GidPair :=
  ((orders.owners.list m.keys).map (fun gid => GidPair.mk gid (m.getD gid []).length) ++
    ((orders.groups.list cfg.groups.keys).filter (· ∉ m.keys)).map (GidPair.mk · 0)).insertionSort
      GidPair.le

/-- The first `part` shards of `hi` go to `lo`. -/
def moveShards (m : GoMap Int (List Shard)) (lo hi : Int) (part : Nat) :
    GoMap Int (List Shard) :=
  (m.set lo (m.getD lo [] ++ (m.getD hi []).take part)).set hi ((m.getD hi []).drop part)

/-- The loop of `rebalanceConfig`, from the indices `i` and `j`. -/
def rebalanceLoop (gids : List GidPair) (avg i j : Nat) (m : GoMap Int (List Shard)) :
    Option (GoMap Int (List Shard)) :=
  if i < j then
    match gids[i]?, gids[j]? with
    | some lo, some hi =>
      if (m.getD lo.gid []).length < avg ∧ avg < (m.getD hi.gid []).length then
        let need := avg - (m.getD lo.gid []).length
        let extra := (m.getD hi.gid []).length - avg
        let m := moveShards m lo.gid hi.gid (min need extra)
        if extra = need then rebalanceLoop gids avg (i + 1) (j - 1) m
        else if need < extra then rebalanceLoop gids avg (i + 1) j m
        else rebalanceLoop gids avg i (j - 1) m
      else some m
    | _, _ => none
  else some m
termination_by j - i

/-- The assignment of the shards in `gid2shards`. -/
def assignShards (order : RangeOrder Int) (m : GoMap Int (List Shard)) (shards : Shard → Int) :
    Shard → Int :=
  (order.list m.keys).foldl
    (fun shards gid => (m.getD gid []).foldl (fun shards s => Function.update shards s gid) shards)
    shards

def rebalanceConfig (orders : Orders) (cfg : Config) : Option Config :=
  if cfg.groups.len = 0 then some cfg
  else
    let m := gid2shards cfg.shards
    let gids := sortedGids orders cfg m
    let avg := max 1 (nShards / cfg.groups.len)
    (rebalanceLoop gids avg 0 (gids.length - 1) m).map fun m =>
      { cfg with shards := assignShards orders.assign m cfg.shards }

/-! ### Operations -/

/-- A `Join`, `Leave` or `Move` with its arguments, or a `Query`, which changes nothing. -/
inductive Request where
  | join (servers : GoMap Int (List String))
  | leave (gids : List Int)
  | move (shard : Int) (gid : Int)
  | query

end RaftLabs.ShardCtrler

namespace RaftLabs
open ShardCtrler

/-- The controller: its configurations, indexed by their numbers. -/
structure ShardCtrler where
  configs : List Config := [{}]

end RaftLabs

namespace RaftLabs.ShardCtrler
open Lib

/-- The shards that stay with groups which do not leave, counted by group. -/
def gid2ShardNum (gids : List Int) (shards : Shard → Int) : GoMap Int Nat :=
  (List.finRange nShards).foldl
    (fun m s => if shards s ∈ gids then m else m.set (shards s) (m.getD (shards s) 0 + 1)) .empty

/-- The temporary owner: the one with the most shards, and the least gid among these. -/
def tGid (order : RangeOrder Int) (m : GoMap Int Nat) : Int :=
  (order.list m.keys).foldl
    (fun tGid gid =>
      if m.getD tGid 0 < m.getD gid 0 then gid
      else if m.getD gid 0 = m.getD tGid 0 then min tGid gid
      else tGid) 0

/-- The groups of a `Join` are added. -/
def joinGroups (order : RangeOrder Int) (cfg : Config) (servers : GoMap Int (List String)) :
    Config :=
  { cfg with
    groups := (order.list servers.keys).foldl
      (fun groups gid => groups.set gid (groups.getD gid [] ++ servers.getD gid [])) cfg.groups }

/-- The groups of a `Leave` are deleted and their shards go to the temporary owner. -/
def leaveGroups (order : RangeOrder Int) (cfg : Config) (gids : List Int) : Config :=
  { cfg with
    groups := gids.foldl (fun groups gid => groups.delete gid) cfg.groups
    shards := fun s =>
      if cfg.shards s ∈ gids then tGid order (gid2ShardNum gids cfg.shards) else cfg.shards s }

/-- The new configuration that every operation starts from. -/
def newConfig (sc : ShardCtrler) (orders : Orders) : Option Config :=
  (sc.configs.getLast?).map fun cfg =>
    { deepCopy orders.copy cfg with num := sc.configs.length }

def push (sc : ShardCtrler) (cfg : Config) : ShardCtrler :=
  { sc with configs := sc.configs ++ [cfg] }

def doJoin (sc : ShardCtrler) (orders : Orders) (servers : GoMap Int (List String)) :
    Option ShardCtrler :=
  (sc.newConfig orders).bind fun cfg =>
    (if cfg.shards 0 = 0 then initConfifg orders.servers cfg servers
      else rebalanceConfig orders (joinGroups orders.servers cfg servers)).map sc.push

def doLeave (sc : ShardCtrler) (orders : Orders) (gids : List Int) : Option ShardCtrler :=
  (sc.newConfig orders).bind fun cfg =>
    (rebalanceConfig orders (leaveGroups orders.counts cfg gids)).map sc.push

def doMove (sc : ShardCtrler) (orders : Orders) (shard gid : Int) : Option ShardCtrler :=
  (sc.newConfig orders).bind fun cfg =>
    if h : 0 ≤ shard ∧ shard.toNat < nShards then
      some (sc.push { cfg with shards := Function.update cfg.shards ⟨shard.toNat, h.2⟩ gid })
    else none

/-- The `switch` of `applyLog` on a request that is not a duplicate. -/
def apply (sc : ShardCtrler) (orders : Orders) : Request → Option ShardCtrler
  | .join servers => sc.doJoin orders servers
  | .leave gids => sc.doLeave orders gids
  | .move shard gid => sc.doMove orders shard gid
  | .query => some sc

/-- The controller and the operations it applies. -/
def controller : System ShardCtrler (Orders × Request) where
  init := {}
  step sc a := sc.apply a.1 a.2

end RaftLabs.ShardCtrler
