import RaftLabs.Lib.AgreedLog
import RaftLabs.Raft.Provenance

/-! Services on top of a Raft cluster.

Every server hosts a replica of a service. The service passes commands to `Start`, reads the apply
channel one message at a time, hands snapshots of its state to `Snapshot` and, when its process
starts over, reads the snapshot on disk. Between the moment a message leaves the channel and the
moment the service has its own lock, Raft goes on; `inbox` holds such a message. `GetState` and
`Start` in one handler, and the change of the state and `rf.Snapshot` in `ReadSnapshot`, are one
step each: the service's lock is held all along, and of what Raft does in between only the last
part can be seen.

A hosted service is a run of replicas over one agreed log, as long as the restarts of the run lose
nothing that matters and its requests are encoded in time. -/
namespace RaftLabs.Raft
open Lib World
variable {n : Nat} {C σ ω : Type}

/-- A service: its state machine and how it writes a state to bytes. A service that takes no
snapshots owes nothing about them. -/
structure Service (σ C ω : Type) extends Machine σ C ω where
  takesSnapshots : Bool
  encode : σ → Bytes
  decode : Bytes → Option σ
  decode_encode : takesSnapshots = true → ∀ s, Valid s → decode (encode s) = some s
  encode_ne_nil : ∀ s, encode s ≠ []

/-- A replica of the service; `inbox` is a message it has received and not looked at. -/
structure Replica (C σ : Type) where
  state : σ
  inbox : Option (ApplyMsg C) := none

structure Host (n : Nat) (C σ : Type) where
  raft : World n C
  replicas : Fin n → Replica C σ

/-- The service of server `i` calls `Snapshot(index, data)`. -/
def World.takeSnapshot (w : World n C) (i : Fin n) (index : Nat) (data : Bytes) : World n C :=
  match (w.nodes i).raft.snapshot index data with
  | none => w.panic i
  | some rf => w.setRaft i rf

namespace Host

def setReplica (h : Host n C σ) (i : Fin n) (r : Replica C σ) : Host n C σ :=
  { h with replicas := Function.update h.replicas i r }

/-- The service of server `i` calls `Start(command)`. -/
def submit (h : Host n C σ) (i : Fin n) (command : C) : Host n C σ × Option (Nat × Nat) :=
  let (rf, result) := (h.raft.nodes i).raft.start command
  ({ h with raft := h.raft.setRaft i rf }, result)

section Service
variable (P : Service σ C ω) (h : Host n C σ)

/-- `ReadSnapshot`: bytes that are empty or do not decode are ignored. -/
def readSnapshot (i : Fin n) (data : Bytes) : Host n C σ :=
  match if data = [] then none else P.decode data with
  | none => h
  | some s =>
    { raft := h.raft.takeSnapshot i (P.position s) data
      replicas := Function.update h.replicas i { h.replicas i with state := s } }

/-- The body of the service's `applyLog` for a message; `none` when applying the command fails. -/
def process (i : Fin n) (o : ω) (m : ApplyMsg C) : Option (Host n C σ) :=
  let s := (h.replicas i).state
  if m.commandValid then
    m.command.bind fun c =>
      (P.apply o s c m.commandIndex).map fun s' => h.setReplica i { state := s' }
  else
    let h := h.setReplica i { state := s }
    some (if P.position s < m.snapshotIndex then h.readSnapshot P i m.snapshot else h)

/-- The service takes a snapshot of its state. -/
def snapshot (i : Fin n) : Host n C σ :=
  let s := (h.replicas i).state
  { h with raft := h.raft.takeSnapshot i (P.position s) (P.encode s) }

/-- Server `i` stops and starts over from its persister, and the service with it. -/
def restart (i : Fin n) : Host n C σ :=
  ({ h with raft := h.raft.restart i }.setReplica i { state := P.start }).readSnapshot P i
    (h.raft.nodes i).raft.persister.snapshot

end Service

/-- All servers started on empty persisters. -/
def initial (P : Service σ C ω) : Host n C σ where
  raft := .initial n C
  replicas := fun _ => { state := P.start }

/-- The scheduler's choices; `raft` is a step of Raft in which the service has no part. -/
inductive Action (n : Nat) (C ω : Type) where
  | raft (a : Raft.Action n C)
  | submit (i : Fin n) (command : C)
  | receive (i : Fin n)
  | process (i : Fin n) (o : ω)
  | snapshot (i : Fin n)
  | restart (i : Fin n)

/-- The service has no part in the step. -/
def internal : Raft.Action n C → Bool
  | .start _ _ | .snapshot _ _ _ | .applySend _ | .restart _ => false
  | .electionTimeout _ | .heartBeat _ | .replicateLog _ _ _ | .updateCommitIndex _ _ | .handle _
  | .lose _ | .ret _ | .applyTake _ | .applyDone _ => true

/-- The service of server `i` takes the next message from its channel. -/
def receive (h : Host n C σ) (i : Fin n) : Option (Host n C σ) :=
  match (h.raft.nodes i).up, (h.raft.nodes i).applying, (h.replicas i).inbox with
  | true, some (m :: rest, last), none =>
    some ({ h with raft := h.raft.applySend i m rest last }.setReplica i
      { h.replicas i with inbox := some m })
  | _, _, _ => none

def step (P : Service σ C ω) (h : Host n C σ) : Action n C ω → Option (Host n C σ)
  | .raft a =>
    if internal a then (Raft.step h.raft a).map fun raft => { h with raft := raft } else none
  | .submit i command =>
    if (h.raft.nodes i).up then some (h.submit i command).1 else none
  | .receive i => h.receive i
  | .process i o =>
    if (h.raft.nodes i).up then (h.replicas i).inbox.bind (h.process P i o) else none
  | .snapshot i =>
    if (h.raft.nodes i).up ∧ P.takesSnapshots then some (h.snapshot P i) else none
  | .restart i => some (h.restart P i)

/-- `n` servers that host the service. -/
def system (n : Nat) (P : Service σ C ω) : System (Host n C σ) (Action n C ω) where
  init := initial P
  step := step P

/-- Nothing that matters is lost in the step. -/
def recovers (h : Host n C σ) : Action n C ω → Prop
  | .raft a => Raft.recovers h.raft a
  | .restart i => Raft.recovers h.raft (.restart i)
  | _ => True

instance (h : Host n C σ) : (a : Action n C ω) → Decidable (recovers h a)
  | .raft a => inferInstanceAs (Decidable (Raft.recovers h.raft a))
  | .restart i => inferInstanceAs (Decidable (Raft.recovers h.raft (.restart i)))
  | .submit _ _ | .receive _ | .process _ _ | .snapshot _ => isTrue trivial

end Host

/-! ### Raft's side of a step -/

section Raft
variable {w w' : World n C} {i : Fin n} {act : Action n C} {node : Node n C}

theorem mem_deliveries {trace : List (Event n C)} {m : ApplyMsg C} :
    m ∈ deliveries i trace ↔ Event.deliver i m ∈ trace := by
  unfold deliveries
  rw [List.mem_filterMap]
  constructor
  · rintro ⟨event, hevent, hm⟩
    cases event with
    | deliver j msg =>
      simp only [Option.ite_none_right_eq_some, Option.some.injEq] at hm
      obtain ⟨rfl, rfl⟩ := hm
      exact hevent
    | _ => cases hm
  · intro hm
    exact ⟨_, hm, by simp⟩

/-- Commands delivered at one index are the same. -/
theorem commands_agree (h : (cluster n C).Reach recovers w) {j : Fin n} {e e' : RaftLogEntry C}
    (hi : commandMsg e ∈ deliveries i w.trace) (hj : commandMsg e' ∈ deliveries j w.trace)
    (hindex : e.index = e'.index) : e.command = e'.command := by
  obtain ⟨-, a, hs, hrel⟩ := implements_reach h
  have hagree := Chosen.agree hs (hrel.events _ (mem_deliveries.mp hi))
    (hrel.events _ (mem_deliveries.mp hj)) rfl rfl hindex
  exact Option.some.inj hagree

/-- Only `applySend` delivers a message, and only it and a restart move `delivered`. -/
theorem ServerStep.quiet {msgs : List (ApplyMsg C)} (h : ServerStep w i act node msgs)
    (hsend : act ≠ .applySend i) (hrestart : act ≠ .restart i) :
    node.delivered = (w.nodes i).delivered ∧ msgs = [] := by
  cases h with
  | method _ _ hdelivered => exact ⟨hdelivered, rfl⟩
  | applyTake => exact ⟨rfl, rfl⟩
  | applySend => exact absurd rfl hsend
  | applyDone => exact ⟨rfl, rfl⟩
  | restart => exact absurd rfl hrestart

/-- A snapshot on disk is not given up. -/
theorem ServerStep.bytes {E : RaftLogEntry C → Prop} {S : Nat → Bytes → Prop}
    {msgs : List (ApplyMsg C)} (h : ServerStep w i act node msgs) (hbrings : Brings E S w act)
    (hrequests : ∀ c ∈ w.calls, SuppliedArgs E S c.args) (hne : ∀ index, ¬ S index [])
    (hnil : node.raft.persister.snapshot = []) : (w.nodes i).raft.persister.snapshot = [] := by
  rcases h.raft_cases with hmethod | ⟨msg, applied, heq⟩ | ⟨-, heq⟩
  · have hlog := hmethod.logStep
    generalize node.raft = rf' at hlog hnil
    cases hlog with
    | kept hrw => exact hrw.bytes ▸ hnil
    | merged _ _ _ _ _ _ _ hrw => exact hrw.bytes ▸ hnil
    | added hrw => exact hrw.bytes ▸ hnil
    | @compacted index data =>
      have hdata := hbrings.snapshot i index data rfl
      rw [show data = [] from hnil] at hdata
      exact absurd hdata (hne _)
    | @installed k c args _ hk _ hargs hinst =>
      have hreq := hrequests c (List.mem_of_getElem? hk)
      rw [hargs] at hreq
      rcases hreq with ⟨hzero, -⟩ | hdata
      · have := hinst.2.1
        omega
      · rw [show args.data = [] from hnil] at hdata
        exact absurd hdata (hne _)
  · rw [heq] at hnil
    exact hnil
  · rw [heq, make_eq] at hnil
    exact hnil

/-- The steps in which the service has a part lose nothing. -/
theorem recovers_start (w : World n C) (i : Fin n) (command : C) :
    recovers w (.start i command) :=
  ⟨(fun _ _ hv => nomatch hv), trivial⟩

theorem recovers_applySend (w : World n C) (i : Fin n) : recovers w (.applySend i) :=
  ⟨(fun _ _ hv => nomatch hv), trivial⟩

theorem recovers_snapshot (w : World n C) (i : Fin n) (index : Nat) (data : Bytes) :
    recovers w (.snapshot i index data) :=
  ⟨(fun _ _ hv => nomatch hv), trivial⟩

theorem step_takeSnapshot (hup : (w.nodes i).up = true) {index : Nat}
    (hindex : index ≤ (w.nodes i).delivered) (data : Bytes) :
    (cluster n C).step w (.snapshot i index data) = some (w.takeSnapshot i index data) := by
  simp only [cluster, step, hup, hindex, and_self, if_true, World.takeSnapshot]
  cases (w.nodes i).raft.snapshot index data <;> rfl

/-- After `Snapshot` there is one on disk. -/
theorem takeSnapshot_bytes {S : Nat → Bytes → Prop} {index : Nat} {data : Bytes}
    (hdisk : Handed S (w.nodes i).raft.snapshotLastIncludedIndex (w.nodes i).raft.persister.snapshot)
    (hne : ∀ index, ¬ S index []) (hdata : data ≠ []) :
    ((w.takeSnapshot i index data).nodes i).raft.persister.snapshot ≠ [] := by
  have hold : index < (w.nodes i).raft.snapshotLastIncludedIndex →
      (w.nodes i).raft.persister.snapshot ≠ [] := by
    intro hlt hnil
    rcases hdisk with ⟨hzero, -⟩ | hs
    · omega
    · rw [hnil] at hs
      exact hne _ hs
  unfold World.takeSnapshot
  obtain ⟨saved, hsaved⟩ := makeRaftState_total (w.nodes i).raft (index + 1)
  unfold Raft.snapshot
  by_cases hlt : index < (w.nodes i).raft.snapshotLastIncludedIndex
  · simpa [hlt, World.setRaft] using hold hlt
  · simpa [hlt, hsaved, World.setRaft] using hdata

end Raft

/-! ### On arrays -/

theorem edited_takeSnapshot (w : World n C) (i : Fin n) (index : Nat) (data : Bytes) :
    Edited (some (i, .reslice)) w (w.takeSnapshot i index data) := by
  unfold World.takeSnapshot
  cases hsnap : (w.nodes i).raft.snapshot index data with
  | none => exact .kept (j := i) rfl rfl
  | some rf => exact .one rfl fun _ => snapshot_suffix _ hsnap

namespace Host
variable (P : Service σ C ω) (h : Host n C σ)

theorem edited_readSnapshot (i : Fin n) (data : Bytes) :
    Edited (some (i, .reslice)) h.raft (h.readSnapshot P i data).raft := by
  unfold readSnapshot
  split
  · exact .of_same fun _ => rfl
  · exact edited_takeSnapshot h.raft i _ data

theorem edited_process {h' : Host n C σ} {i : Fin n} {o : ω} {m : ApplyMsg C}
    (hprocess : h.process P i o m = some h') : Edited (some (i, .reslice)) h.raft h'.raft := by
  unfold process at hprocess
  dsimp only at hprocess
  split at hprocess
  · simp only [Option.bind_eq_some_iff, Option.map_eq_some_iff] at hprocess
    obtain ⟨c, -, s, -, rfl⟩ := hprocess
    exact .of_same fun _ => rfl
  · cases hprocess
    split
    · exact edited_readSnapshot P (h.setReplica i _) i m.snapshot
    · exact .of_same fun _ => rfl

/-- The service's `Snapshot` after a restart only cuts the log that was decoded. -/
theorem edited_restart (i : Fin n) : Edited (some (i, .load)) h.raft (h.restart P i).raft := by
  refine ⟨fun j hj => ?_, fun j hj => nomatch hj⟩
  have hne : j ≠ i := fun heq => hj .load (by rw [heq])
  unfold restart
  rw [(edited_readSnapshot P _ i _).others j fun e heq => hne (by cases heq; rfl)]
  show ((h.raft.restart i).nodes j).raft.logs = _
  unfold World.restart
  rw [setNode_ne _ _ hne]

/-- The step of Raft that an action is. -/
def raftAction : Action n C ω → Option (Raft.Action n C)
  | .raft a => some a
  | _ => none

/-- Whose log an action edits. -/
def editOf (h : Host n C σ) : Action n C ω → Option (Fin n × Edit)
  | .raft a => Raft.editOf h.raft a
  | .submit i _ => some (i, .append)
  | .receive _ => none
  | .process i _ => some (i, .reslice)
  | .snapshot i => some (i, .reslice)
  | .restart i => some (i, .load)

theorem edited_step {h' : Host n C σ} {act : Action n C ω} (hstep : step P h act = some h') :
    Edited (editOf h act) h.raft h'.raft := by
  cases act with
  | raft act =>
    simp only [step, Option.ite_none_right_eq_some, Option.map_eq_some_iff] at hstep
    obtain ⟨-, raft', hraft, rfl⟩ := hstep
    exact edited_of_stepped (stepped hraft)
  | submit i command =>
    simp only [step, Option.ite_none_right_eq_some, Option.some.injEq] at hstep
    obtain ⟨-, rfl⟩ := hstep
    exact .append rfl
  | receive i =>
    simp only [step, receive] at hstep
    split at hstep
    · cases hstep
      exact .kept (j := i) rfl rfl
    · cases hstep
  | process i o =>
    simp only [step, Option.ite_none_right_eq_some, Option.bind_eq_some_iff] at hstep
    obtain ⟨-, m, -, hprocess⟩ := hstep
    exact edited_process P h hprocess
  | snapshot i =>
    simp only [step, Option.ite_none_right_eq_some, Option.some.injEq] at hstep
    obtain ⟨-, rfl⟩ := hstep
    exact edited_takeSnapshot h.raft i _ _
  | restart i =>
    cases hstep
    exact edited_restart P h i

theorem step_applyTake {h' : Host n C σ} {act : Action n C ω} {i : Fin n}
    (hact : raftAction act = some (.applyTake i)) (hstep : step P h act = some h') :
    h' = { h with raft := h.raft.applyTake i } := by
  cases act with
  | raft act =>
    cases hact
    simp only [step, Option.ite_none_right_eq_some, Option.map_eq_some_iff] at hstep
    obtain ⟨-, raft', hraft, rfl⟩ := hstep
    rw [(ofCluster n C).step_applyTake h.raft _ raft' i rfl hraft]
    rfl
  | _ => cases hact

/-- Hosts carry a cluster. -/
def carrier (n : Nat) (P : Service σ C ω) : Carrier (Host n C σ) (Action n C ω) n C where
  toSystem := system n P
  raft := Host.raft
  setRaft h w := { h with raft := w }
  action := raftAction
  edit := editOf
  raft_setRaft _ _ := rfl
  setRaft_raft _ := rfl
  init_logs _ := rfl
  step_applyTake h _ _ _ hact hstep := step_applyTake P h hact hstep
  edited h _ _ hstep := edited_step P h hstep

end Host

end RaftLabs.Raft
