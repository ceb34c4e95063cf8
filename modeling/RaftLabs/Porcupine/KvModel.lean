import Mathlib.Data.String.Basic
import RaftLabs.Lib.GoMap
import RaftLabs.Porcupine.Checker

/-! The model of the key/value service (`models/kv.go`).

The state is the value of one key: operations are checked key by key. -/
namespace RaftLabs.Porcupine
open Lib

structure KvInput where
  op : UInt8
  key : String
  value : String
deriving DecidableEq

structure KvOutput where
  value : String
deriving DecidableEq

/-- The operations of each key, by the order of the keys. -/
def kvPartition (order : RangeOrder String) (history : List (Operation KvInput KvOutput)) :
    List (List (Operation KvInput KvOutput)) :=
  let m : GoMap String (List (Operation KvInput KvOutput)) :=
    history.foldl (fun m v => m.set v.input.key (m.getD v.input.key [] ++ [v])) .empty
  let keys := (order.list m.keys).insertionSort (· ≤ ·)
  keys.map fun k => m.getD k []

/-- `Op` 0 is a get, 1 a put, everything else an append. -/
def kvStep (state : String) (input : KvInput) (output : KvOutput) : Bool × String :=
  if input.op.toNat = 0 then (decide (output.value = state), state)
  else if input.op.toNat = 1 then (true, input.value)
  else (true, state ++ input.value)

/-- `KvModel`; `order` is that of its loop over the keys. -/
def kvModel (order : RangeOrder String) : Model String KvInput KvOutput where
  partition := some (kvPartition order)
  init := ""
  step := kvStep
  equal := none

end RaftLabs.Porcupine
