import Mathlib.Data.Nat.Basic
import Mathlib.Order.Basic
import RaftLabs.KVRaft.Service

/-! What applying the log computes.

A server's state is a replay of the commands it has applied. A command has an effect where
its number is above the table entry of its client; the commands that change the map are the
updates in the slots of the log, and the map is what they leave. -/
namespace RaftLabs.KVRaft
open Lib

/-! ### Replaying the log -/

/-- One command applied after all before it. -/
def KVServer.next (kv : KVServer) (op : Op) : KVServer := kv.applyCommand op (kv.commitedId + 1)

/-- The state after applying a log. -/
def replayFrom (kv : KVServer) (log : List Op) : KVServer := log.foldl KVServer.next kv

def replay (log : List Op) : KVServer := replayFrom {} log

theorem replayFrom_append (kv : KVServer) (l m : List Op) :
    replayFrom kv (l ++ m) = replayFrom (replayFrom kv l) m := List.foldl_append

theorem commitedId_replayFrom (kv : KVServer) (log : List Op) :
    (replayFrom kv log).commitedId = kv.commitedId + log.length := by
  induction log generalizing kv with
  | nil => rfl
  | cons op rest ih =>
    show (replayFrom (kv.next op) rest).commitedId = _
    rw [ih, KVServer.next, KVServer.commitedId_applyCommand, List.length_cons]
    omega

theorem commitedId_replay (log : List Op) : (replay log).commitedId = log.length :=
  (commitedId_replayFrom {} log).trans (Nat.zero_add _)

theorem completed_next (kv : KVServer) (op : Op) (c : Nat) :
    (kv.next op).completed c =
      if op.clientId = c then max (kv.completed c) op.reqNo else kv.completed c :=
  KVServer.completed_applyCommand kv op _ c

theorem completed_le_next (kv : KVServer) (op : Op) (c : Nat) :
    kv.completed c ≤ (kv.next op).completed c := by
  rw [completed_next]
  split
  · exact Nat.le_max_left _ _
  · exact Nat.le_refl _

theorem completed_le_replayFrom (kv : KVServer) (log : List Op) (c : Nat) :
    kv.completed c ≤ (replayFrom kv log).completed c := by
  induction log generalizing kv with
  | nil => exact Nat.le_refl _
  | cons op rest ih => exact (completed_le_next kv op c).trans (ih (kv.next op))

theorem completed_mono {l m : List Op} (h : l <+: m) (c : Nat) :
    (replay l).completed c ≤ (replay m).completed c := by
  obtain ⟨rest, rfl⟩ := h
  rw [replay, replay, replayFrom_append]
  exact completed_le_replayFrom _ rest c

theorem completed_take_mono (log : List Op) {i j : Nat} (h : i ≤ j) (c : Nat) :
    (replay (log.take i)).completed c ≤ (replay (log.take j)).completed c :=
  completed_mono (List.take_prefix_take_left h) c

/-- Where the table entry of a client first reaches `r`, a command of this client does it. -/
theorem exists_completes (log : List Op) (kv : KVServer) {c r : Nat} (hlt : kv.completed c < r)
    (hr : r ≤ (replayFrom kv log).completed c) :
    ∃ (i : Nat) (op : Op), log[i]? = some op ∧ op.clientId = c ∧
      (replayFrom kv (log.take i)).completed c < r ∧ r ≤ op.reqNo := by
  induction log generalizing kv with
  | nil => exact absurd hr (Nat.not_le.mpr hlt)
  | cons op rest ih =>
    by_cases hnext : (kv.next op).completed c < r
    · obtain ⟨i, op', hop', hrest⟩ := ih (kv.next op) hnext hr
      exact ⟨i + 1, op', hop', hrest⟩
    · rw [completed_next] at hnext
      split at hnext
      · exact ⟨0, op, rfl, ‹_›, hlt, by omega⟩
      · exact absurd hlt hnext

/-! ### The slots of the log -/

/-- The command does not only read. -/
def Request.isUpdate : Request → Bool
  | .get _ => false
  | .putAppend _ _ _ => true

/-- The update that a command makes in the state `kv`, if any. -/
def slot (kv : KVServer) (op : Op) : Option (Operation CallId Request String) :=
  if kv.completed op.clientId < op.reqNo ∧ op.arg.request.isUpdate then
    some ⟨(op.clientId, op.reqNo), op.arg.request, ""⟩
  else none

def slotsFrom (kv : KVServer) : List Op → List (Option (Operation CallId Request String))
  | [] => []
  | op :: rest => slot kv op :: slotsFrom (kv.next op) rest

theorem slot_eq_some {kv : KVServer} {op : Op} {u : Operation CallId Request String}
    (h : slot kv op = some u) : kv.completed op.clientId < op.reqNo ∧
      op.arg.request.isUpdate ∧ u = ⟨(op.clientId, op.reqNo), op.arg.request, ""⟩ := by
  unfold slot at h
  split at h
  · rename_i hc
    exact ⟨hc.1, hc.2, (Option.some.inj h).symm⟩
  · cases h

theorem slotsFrom_length (kv : KVServer) (log : List Op) :
    (slotsFrom kv log).length = log.length := by
  induction log generalizing kv with
  | nil => rfl
  | cons op rest ih => exact congrArg (· + 1) (ih _)

theorem slotsFrom_take (kv : KVServer) (log : List Op) (j : Nat) :
    (slotsFrom kv log).take j = slotsFrom kv (log.take j) := by
  induction log generalizing kv j with
  | nil => rw [List.take_nil, slotsFrom, List.take_nil]
  | cons op rest ih =>
    cases j with
    | zero => rfl
    | succ j => exact congrArg (slot kv op :: ·) (ih _ j)

theorem slotsFrom_getElem? (kv : KVServer) (log : List Op) (i : Nat) :
    (slotsFrom kv log)[i]? = (log[i]?).map (slot (replayFrom kv (log.take i))) := by
  induction log generalizing kv i with
  | nil => rfl
  | cons op rest ih =>
    cases i with
    | zero => rfl
    | succ i => exact ih _ i

/-- A command changes the map as its update does, and a command without an update not
at all. -/
theorem run_slot (kv : KVServer) (op : Op) :
    mapObject.run kv.kvMap (slot kv op).toList = (kv.next op).kvMap := by
  have hwrite : op.arg.request.isUpdate = true →
      (mapObject.step kv.kvMap op.arg.request).1 = KVServer.write kv.kvMap op.arg := by
    cases op.arg with
    | get args => exact nofun
    | putAppend args => rcases args with ⟨key, value, _ | _, _, _⟩ <;> exact fun _ => rfl
  have hread : ¬ op.arg.request.isUpdate = true → KVServer.write kv.kvMap op.arg = kv.kvMap := by
    cases op.arg with
    | get args => exact fun _ => rfl
    | putAppend args => exact fun h => absurd rfl h
  rw [KVServer.next, KVServer.kvMap_applyCommand, slot]
  by_cases hlt : kv.completed op.clientId < op.reqNo
  · by_cases hup : op.arg.request.isUpdate = true
    · rw [if_pos ⟨hlt, hup⟩, if_pos hlt]
      exact hwrite hup
    · rw [if_neg fun h => hup h.2, if_pos hlt, hread hup]
      rfl
  · rw [if_neg fun h => hlt h.1, if_neg hlt]
    rfl

theorem legal_slot (kv : KVServer) (op : Op) :
    mapObject.Legal kv.kvMap (slot kv op).toList := by
  cases hslot : slot kv op with
  | none => exact trivial
  | some u =>
    obtain ⟨_, hup, rfl⟩ := slot_eq_some hslot
    refine ⟨?_, trivial⟩
    show (mapObject.step kv.kvMap op.arg.request).2 = ""
    cases hreq : op.arg.request with
    | get key =>
      rw [hreq] at hup
      cases hup
    | putAppend kind key value => cases kind <;> rfl

theorem reduceOption_slotsFrom (kv : KVServer) (op : Op) (rest : List Op) :
    (slotsFrom kv (op :: rest)).reduceOption =
      (slot kv op).toList ++ (slotsFrom (kv.next op) rest).reduceOption := by
  rw [slotsFrom]
  cases slot kv op <;> rfl

/-- The updates of the slots turn the map into the replayed one. -/
theorem run_slotsFrom (kv : KVServer) (log : List Op) :
    mapObject.run kv.kvMap (slotsFrom kv log).reduceOption = (replayFrom kv log).kvMap := by
  induction log generalizing kv with
  | nil => rfl
  | cons op rest ih =>
    rw [reduceOption_slotsFrom, Object.run_append, run_slot]
    exact ih _

theorem legal_slotsFrom (kv : KVServer) (log : List Op) :
    mapObject.Legal kv.kvMap (slotsFrom kv log).reduceOption := by
  induction log generalizing kv with
  | nil => exact trivial
  | cons op rest ih =>
    rw [reduceOption_slotsFrom, Object.legal_append, run_slot]
    exact ⟨legal_slot kv op, ih _⟩

/-- The numbers of later updates are above the table entry of their client. -/
theorem slotsFrom_fresh {kv : KVServer} {log : List Op} {u : Operation CallId Request String}
    (h : u ∈ (slotsFrom kv log).reduceOption) : kv.completed u.id.1 < u.id.2 := by
  induction log generalizing kv with
  | nil => cases h
  | cons op rest ih =>
    rw [reduceOption_slotsFrom, List.mem_append, Option.mem_toList] at h
    rcases h with h | h
    · obtain ⟨hlt, _, rfl⟩ := slot_eq_some h
      exact hlt
    · exact Nat.lt_of_le_of_lt (completed_le_next kv op _) (ih h)

/-- No call takes effect twice. -/
theorem slotsFrom_once (kv : KVServer) (log : List Op) :
    ((slotsFrom kv log).reduceOption.map (·.id)).Nodup := by
  induction log generalizing kv with
  | nil => exact List.nodup_nil
  | cons op rest ih =>
    rw [reduceOption_slotsFrom, List.map_append]
    cases hslot : slot kv op with
    | none => exact ih _
    | some u =>
      obtain ⟨hlt, _, rfl⟩ := slot_eq_some hslot
      refine List.nodup_cons.mpr ⟨fun hm => ?_, ih _⟩
      obtain ⟨v, hv, hid⟩ := List.mem_map.mp hm
      have hfresh := slotsFrom_fresh hv
      rw [hid, completed_next, if_pos rfl] at hfresh
      exact Nat.lt_irrefl _ (Nat.lt_of_le_of_lt (Nat.le_max_right _ _) hfresh)

end RaftLabs.KVRaft
