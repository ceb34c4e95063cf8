import RaftLabs.Lib.GoSlice
import RaftLabs.Raft.Logs
import RaftLabs.Raft.Steps

/-! The log in memory, and requests that are still to be encoded.

`replicateLog` puts a slice of `rf.Logs` into its request and leaves the request to a goroutine,
which encodes it without `rf.mu`. Until then the request shares the array of the log. `append` in
`AppendEntries` and `Start` writes into this array as long as its capacity suffices, so a request
that waits for its encoder can change: what is sent is what the array holds when it is encoded.
`applyLog`, too, can see more of the array than the log, when `CommitIndex` is past its end.

The cluster of the other modules makes its requests of values. Here it runs on arrays:
`Carrier.inMemory` is any system with a cluster in it, with the arrays behind the logs and with
the requests that nobody has encoded yet. Encoding is one step. It leaves every request as it was
made as long as the run is `timely`, and a timely run whose `applyLog` stays inside the log is a
run of the system without arrays (`Carrier.reach_state`). Runs that are not timely are other runs;
two of them stand at the end of this file. -/
namespace RaftLabs.Raft
open Lib World
variable {n : Nat} {C : Type}

/-! ### Arrays -/

/-- What a locked section does to `rf.Logs`. -/
inductive Edit where
  /-- It appends to a prefix of the log. -/
  | append
  /-- It cuts the log off at its start. -/
  | reslice
  /-- It decodes the log from the persister. -/
  | load
deriving DecidableEq, Repr

/-- The arrays of a server, and `rf.Logs`. -/
structure LogMemory (C : Type) where
  arrays : Arrays (RaftLogEntry C)
  logs : GoSlice

/-- The slots from the start of the log to its capacity. -/
def LogMemory.slots (m : LogMemory C) : List (Option (RaftLogEntry C)) := m.logs.slots m.arrays

/-- The edit after which the log is `logs`. -/
def LogMemory.edit (m : LogMemory C) (logs : List (RaftLogEntry C)) (spare : Nat) :
    Edit → LogMemory C
  | .append =>
    let (arrays, slice) := m.logs.append m.arrays logs spare
    ⟨arrays, slice⟩
  | .reslice => { m with logs := m.logs.dropFirst (m.logs.length - logs.length) }
  | .load =>
    let (arrays, slice) := GoSlice.alloc m.arrays logs spare
    ⟨arrays, slice⟩

/-- A request of `server` that is not encoded yet; `entries` is the slice that its `Entries` are. -/
structure Unencoded (n : Nat) where
  call : Nat
  server : Fin n
  entries : GoSlice

structure Memory (n : Nat) (C : Type) where
  servers : Fin n → LogMemory C
  unencoded : List (Unencoded n)

namespace Memory

/-- Empty logs, and no requests. -/
def initial (n : Nat) (C : Type) : Memory n C where
  servers := fun _ => ⟨[], .empty⟩
  unencoded := []

/-- The entries of the request, as the array has them now. -/
def entries (m : Memory n C) (r : Unencoded n) : List (RaftLogEntry C) :=
  (r.entries.read (m.servers r.server).arrays).filterMap id

end Memory

def Args.setEntries (entries : List (RaftLogEntry C)) : Args n C → Args n C
  | .requestVote args => .requestVote args
  | .appendEntries args => .appendEntries { args with entries := entries }
  | .installSnapshot args => .installSnapshot args

def Args.entries? : Args n C → Option (List (RaftLogEntry C))
  | .appendEntries args => some args.entries
  | .requestVote _ | .installSnapshot _ => none

/-- Call `k` sends these entries. -/
def World.setEntries (w : World n C) (k : Nat) (entries : List (RaftLogEntry C)) : World n C :=
  { w with calls := w.calls.modify k fun c => { c with args := c.args.setEntries entries } }

/-- The entries of call `k`. -/
def World.entries? (w : World n C) (k : Nat) : Option (List (RaftLogEntry C)) :=
  w.calls[k]?.bind fun c => c.args.entries?

namespace Memory

/-- All requests are encoded but those that wait on. -/
def encode (m : Memory n C) (waits : List Nat) (w : World n C) : World n C :=
  (m.unencoded.filter fun r => r.call ∉ waits).foldl
    (fun w r => w.setEntries r.call (m.entries r)) w

/-- The memory after that. -/
def await (m : Memory n C) (waits : List Nat) : Memory n C :=
  { m with unencoded := m.unencoded.filter fun r => r.call ∈ waits }

/-- A request that is not encoded can neither be handled nor be lost. -/
def holdsBack (m : Memory n C) : Option (Action n C) → Bool
  | some (.handle k) | some (.lose k) => m.unencoded.any fun r => r.call == k
  | _ => false

/-- What call `k` refers to, when it is a request with entries: the end of its server's log. -/
def reference (m : Memory n C) (k : Nat) (c : Call n C) : Option (Unencoded n) :=
  let logs := (m.servers c.src).logs
  c.args.entries?.map fun entries =>
    { call := k
      server := c.src
      entries := logs.dropFirst (logs.length - entries.length) }

/-- The memory after a step from `w` to `w'` with this edit. The requests it has made wait for
their encoders. -/
def next (m : Memory n C) (edit : Option (Fin n × Edit)) (spare : Nat) (w w' : World n C) :
    Memory n C :=
  let m := match edit with
    | none => m
    | some (i, e) =>
      { m with servers := Function.update m.servers i
                 ((m.servers i).edit (w'.nodes i).raft.logs spare e) }
  let made := (w'.calls.drop w.calls.length).zipIdx w.calls.length
  { m with unencoded := m.unencoded ++ made.filterMap fun p => m.reference p.2 p.1 }

end Memory

/-! ### Systems with a cluster in them -/

/-- `applyLog` of server `i`, when the array of its log holds `slots`. -/
def World.applyTakeFrom (w : World n C) (i : Fin n) (slots : List (Option (RaftLogEntry C))) :
    World n C :=
  w.take i ((w.nodes i).raft.applyLogFrom slots)

/-- What a step may do to the logs: only the edit changes one, and to reslice is to cut off the
start. -/
structure Edited (edit : Option (Fin n × Edit)) (w w' : World n C) : Prop where
  others : ∀ i, (∀ e, edit ≠ some (i, e)) → (w'.nodes i).raft.logs = (w.nodes i).raft.logs
  resliced : ∀ i, edit = some (i, .reslice) →
    (w'.nodes i).raft.logs <:+ (w.nodes i).raft.logs

theorem Edited.of_same {edit : Option (Fin n × Edit)} {w w' : World n C}
    (h : ∀ i, (w'.nodes i).raft.logs = (w.nodes i).raft.logs) : Edited edit w w' :=
  ⟨fun i _ => h i, fun i _ => h i ▸ List.suffix_refl _⟩

/-- A system that runs a cluster: `raft` is the cluster in a state, `action` the cluster's own step
that an action is, if any, and `edit` says whose log it edits and how. -/
structure Carrier (σ α : Type) (n : Nat) (C : Type) extends System σ α where
  raft : σ → World n C
  setRaft : σ → World n C → σ
  action : α → Option (Action n C)
  edit : σ → α → Option (Fin n × Edit)
  raft_setRaft : ∀ s w, raft (setRaft s w) = w
  setRaft_raft : ∀ s, setRaft s (raft s) = s
  init_logs : ∀ i, ((raft init).nodes i).raft.logs = []
  step_applyTake : ∀ s a s' i, action a = some (.applyTake i) → step s a = some s' →
    s' = setRaft s ((raft s).applyTake i)
  edited : ∀ s a s', step s a = some s' → Edited (edit s a) (raft s) (raft s')

/-- A state and the memory of its servers. -/
structure InMemory (σ : Type) (n : Nat) (C : Type) where
  state : σ
  memory : Memory n C

/-- An action, the calls whose requests still wait for their encoders when it is taken, and the
spare capacity of an array that it allocates. -/
structure Scheduled (α : Type) where
  act : α
  waits : List Nat
  spare : Nat

/-- Actions that find these calls waiting. -/
def scheduled {α : Type} (waits : List Nat) (acts : List α) : List (Scheduled α) :=
  acts.map fun act => ⟨act, waits, 0⟩

namespace Carrier
variable {σ α : Type} (K : Carrier σ α n C)

/-- The step of an action, where `applyLog` reads the array of its log. -/
def stepIn (m : Memory n C) (s : σ) (a : α) : Option σ :=
  match K.action a with
  | some (.applyTake i) =>
    (K.step s a).map fun _ => K.setRaft s ((K.raft s).applyTakeFrom i (m.servers i).slots)
  | _ => K.step s a

/-- The state once all requests but those that wait are encoded. -/
def encoded (x : InMemory σ n C) (waits : List Nat) : σ :=
  K.setRaft x.state (x.memory.encode waits (K.raft x.state))

/-- The system on arrays: requests are encoded, then the action is taken, and the requests it makes
refer to the logs. -/
def inMemory : System (InMemory σ n C) (Scheduled α) where
  init := ⟨K.init, .initial n C⟩
  step x a :=
    let s := K.encoded x a.waits
    let m := x.memory.await a.waits
    if m.holdsBack (K.action a.act) then none
    else (K.stepIn m s a.act).map fun s' =>
      ⟨s', m.next (K.edit s a.act) a.spare (K.raft s) (K.raft s')⟩

end Carrier

/-- Every request that is encoded now still has the entries it was made with. -/
def Memory.InTime (m : Memory n C) (w : World n C) (waits : List Nat) : Prop :=
  ∀ r ∈ m.unencoded, r.call ∉ waits → w.entries? r.call = some (m.entries r)

instance [DecidableEq C] (m : Memory n C) (w : World n C) (waits : List Nat) :
    Decidable (m.InTime w waits) :=
  inferInstanceAs (Decidable (∀ r ∈ m.unencoded, _))

/-- The action satisfies `ok`, and every request is encoded before an entry that it refers to is
overwritten. -/
def Carrier.timely {σ α : Type} (K : Carrier σ α n C) (ok : σ → α → Prop) (x : InMemory σ n C)
    (a : Scheduled α) : Prop :=
  ok x.state a.act ∧ x.memory.InTime (K.raft x.state) a.waits

instance {σ α : Type} [DecidableEq C] (K : Carrier σ α n C) (ok : σ → α → Prop)
    [∀ s a, Decidable (ok s a)] (x : InMemory σ n C) (a : Scheduled α) :
    Decidable (K.timely ok x a) :=
  inferInstanceAs (Decidable (_ ∧ _))

/-! ### The arrays hold the logs -/

/-- Every log is what its slice holds. -/
def Memory.Holds (m : Memory n C) (w : World n C) : Prop :=
  ∀ i, (m.servers i).logs.Holds (m.servers i).arrays (w.nodes i).raft.logs

theorem World.setEntries_nodes (w : World n C) (k : Nat) (entries : List (RaftLogEntry C)) :
    (w.setEntries k entries).nodes = w.nodes := rfl

theorem Memory.encode_nodes (m : Memory n C) (waits : List Nat) (w : World n C) :
    (m.encode waits w).nodes = w.nodes := by
  unfold Memory.encode
  generalize m.unencoded.filter _ = rs
  induction rs generalizing w with
  | nil => rfl
  | cons r rest ih => exact ih (w.setEntries r.call (m.entries r))

theorem LogMemory.holds_edit {m : LogMemory C} {old new : List (RaftLogEntry C)} {e : Edit}
    {spare : Nat} (h : m.logs.Holds m.arrays old) (hreslice : e = .reslice → new <:+ old) :
    (m.edit new spare e).logs.Holds (m.edit new spare e).arrays new := by
  cases e with
  | append => exact GoSlice.holds_append
  | load => exact GoSlice.holds_alloc
  | reslice =>
    obtain ⟨cut, rfl⟩ := hreslice rfl
    have hcut : m.logs.length - new.length = cut.length := by
      rw [h.length, List.length_append]
      omega
    have hdrop := h.dropFirst cut.length
    rw [List.drop_left] at hdrop
    unfold LogMemory.edit
    rw [hcut]
    exact hdrop

theorem Memory.Holds.next {m : Memory n C} {w w' : World n C} {edit : Option (Fin n × Edit)}
    {spare : Nat} (h : m.Holds w) (hedit : Edited edit w w') :
    (m.next edit spare w w').Holds w' := by
  intro i
  unfold Memory.next
  cases edit with
  | none =>
    rw [hedit.others i nofun]
    exact h i
  | some p =>
    obtain ⟨j, e⟩ := p
    dsimp only
    by_cases hi : i = j
    · subst hi
      rw [Function.update_self]
      exact LogMemory.holds_edit (h i) fun he => hedit.resliced i (he ▸ rfl)
    · rw [Function.update_of_ne hi, hedit.others i fun e' heq => hi (by cases heq; rfl)]
      exact h i

theorem setNode_logs (w : World n C) (i : Fin n) {node : Node n C}
    (h : node.raft.logs = (w.nodes i).raft.logs) (j : Fin n) :
    ((w.setNode i node).nodes j).raft.logs = (w.nodes j).raft.logs :=
  forall_setNode (P := fun j node => node.raft.logs = (w.nodes j).raft.logs) (fun _ => rfl) h j

/-- Whatever `applyLog` reads, of its server it takes only the pending snapshot. -/
theorem World.applyTakeFrom_cases (w : World n C) (i : Fin n)
    (slots : List (Option (RaftLogEntry C))) :
    w.applyTakeFrom i slots = w.panic i ∨
      ∃ applying, w.applyTakeFrom i slots = w.setNode i
        { w.nodes i with
          raft := { (w.nodes i).raft with snapshotMsg := {} }
          applying := applying } := by
  unfold World.applyTakeFrom
  cases htake : (w.nodes i).raft.applyLogFrom slots with
  | none => exact .inl rfl
  | some p =>
    obtain ⟨taken, -, rfl⟩ := Option.map_eq_some_iff.mp htake
    exact .inr ⟨_, rfl⟩

/-- `applyLog` changes no log. -/
theorem World.applyTakeFrom_logs (w : World n C) (i j : Fin n)
    (slots : List (Option (RaftLogEntry C))) :
    ((w.applyTakeFrom i slots).nodes j).raft.logs = (w.nodes j).raft.logs := by
  rcases w.applyTakeFrom_cases i slots with heq | ⟨applying, heq⟩ <;> rw [heq]
  · refine setNode_logs w i ?_ j
    rfl
  · refine setNode_logs w i ?_ j
    rfl

/-- The entries that call `k` has are sent as they are. -/
theorem World.setEntries_eq {w : World n C} {k : Nat} {entries : List (RaftLogEntry C)}
    (h : w.entries? k = some entries) : w.setEntries k entries = w := by
  obtain ⟨c, hk, hc⟩ := Option.bind_eq_some_iff.mp h
  have hsame : c.args.setEntries entries = c.args := by
    cases hargs : c.args with
    | appendEntries args =>
      rw [hargs] at hc
      cases hc
      rfl
    | requestVote args => rfl
    | installSnapshot args => rfl
  have hcalls : (w.calls.modify k fun c => { c with args := c.args.setEntries entries }) =
      w.calls := by
    refine List.ext_getElem? fun j => ?_
    rw [List.getElem?_modify]
    by_cases hj : k = j
    · subst hj
      simp [hk, hsame]
    · simp [hj]
  unfold World.setEntries
  rw [hcalls]

theorem Memory.InTime.encode_eq {m : Memory n C} {w : World n C} {waits : List Nat}
    (h : m.InTime w waits) : m.encode waits w = w := by
  unfold Memory.encode
  have hall : ∀ r ∈ m.unencoded.filter fun r => r.call ∉ waits,
      w.setEntries r.call (m.entries r) = w := by
    intro r hr
    obtain ⟨hmem, hout⟩ := List.mem_filter.mp hr
    exact World.setEntries_eq (h r hmem (of_decide_eq_true hout))
  generalize m.unencoded.filter _ = rs at hall
  induction rs with
  | nil => rfl
  | cons r rest ih =>
    rw [List.foldl_cons, hall r List.mem_cons_self]
    exact ih fun r hr => hall r (List.mem_cons_of_mem _ hr)

namespace Carrier
variable {σ α : Type} (K : Carrier σ α n C) {x x' : InMemory σ n C} {a : Scheduled α}

theorem inMemory_step (h : K.inMemory.step x a = some x') :
    ∃ s', K.stepIn (x.memory.await a.waits) (K.encoded x a.waits) a.act = some s' ∧
      x' = ⟨s', (x.memory.await a.waits).next (K.edit (K.encoded x a.waits) a.act) a.spare
        (K.raft (K.encoded x a.waits)) (K.raft s')⟩ := by
  simp only [inMemory, Option.ite_none_left_eq_some, Option.map_eq_some_iff] at h
  obtain ⟨-, s', hs', rfl⟩ := h
  exact ⟨s', hs', rfl⟩

/-- A step on arrays: a step of the system, or `applyLog` with the array of its log. -/
theorem stepIn_cases {m : Memory n C} {s s' : σ} {act : α} (h : K.stepIn m s act = some s') :
    ∃ t, K.step s act = some t ∧ (s' = t ∨ ∃ i, K.action act = some (.applyTake i) ∧
      s' = K.setRaft s ((K.raft s).applyTakeFrom i (m.servers i).slots)) := by
  unfold stepIn at h
  split at h
  · rename_i i hact
    obtain ⟨t, ht, rfl⟩ := Option.map_eq_some_iff.mp h
    exact ⟨t, ht, .inr ⟨i, hact, rfl⟩⟩
  · exact ⟨s', h, .inl rfl⟩

/-- Whatever is encoded late, the arrays hold the logs. -/
theorem holds_reach (h : K.inMemory.Reach System.anyStep x) : x.memory.Holds (K.raft x.state) := by
  refine h.invariant (P := fun x => x.memory.Holds (K.raft x.state)) (fun i => ?_)
    fun x a x' _ hx _ hstep => ?_
  · show GoSlice.Holds _ _ ((K.raft K.init).nodes i).raft.logs
    rw [K.init_logs i]
    exact GoSlice.holds_empty
  · obtain ⟨s', hs', rfl⟩ := K.inMemory_step hstep
    have hlogs : (x.memory.await a.waits).Holds (K.raft (K.encoded x a.waits)) := by
      intro i
      rw [encoded, K.raft_setRaft, Memory.encode_nodes]
      exact hx i
    refine hlogs.next ?_
    obtain ⟨t, ht, heq | ⟨i, -, heq⟩⟩ := K.stepIn_cases hs'
    · exact heq ▸ K.edited _ _ _ ht
    · refine .of_same fun j => ?_
      rw [heq, K.raft_setRaft, World.applyTakeFrom_logs]

/-! ### Timely runs -/

/-- A request that is encoded in time is sent as it was made. -/
theorem encoded_of_inTime (h : x.memory.InTime (K.raft x.state) a.waits) :
    K.encoded x a.waits = x.state := by
  rw [encoded, h.encode_eq, K.setRaft_raft]

/-- A timely step whose `applyLog` stays inside the log is a step of the system. -/
theorem step_state (h : K.inMemory.Reach System.anyStep x)
    (htime : x.memory.InTime (K.raft x.state) a.waits)
    (hwithin : ∀ i, K.action a.act = some (.applyTake i) →
      ((K.raft x.state).nodes i).raft.commitIndex ≤ ((K.raft x.state).nodes i).raft.endIndex)
    (hstep : K.inMemory.step x a = some x') : K.step x.state a.act = some x'.state := by
  obtain ⟨s', hs', rfl⟩ := K.inMemory_step hstep
  rw [K.encoded_of_inTime htime] at hs'
  obtain ⟨t, ht, heq | ⟨i, hact, heq⟩⟩ := K.stepIn_cases hs'
  · exact ht.trans (congrArg some heq.symm)
  · obtain ⟨rest, hslots⟩ := (K.holds_reach h i).slots
    have htake : (K.raft x.state).applyTakeFrom i (x.memory.servers i).slots =
        (K.raft x.state).applyTake i :=
      congrArg ((K.raft x.state).take i) (applyLogFrom_eq hslots (hwithin i hact))
    rw [ht, K.step_applyTake _ _ _ i hact ht, ← htake]
    exact congrArg some heq.symm

/-- **Timely runs are runs of values.** Where the runs of a class keep `CommitIndex` inside the log
whenever `applyLog` runs, the timely runs of the class need no arrays. -/
theorem reach_state {ok : σ → α → Prop}
    (hwithin : ∀ s act i, K.Reach ok s → ok s act → K.action act = some (.applyTake i) →
      ((K.raft s).nodes i).raft.commitIndex ≤ ((K.raft s).nodes i).raft.endIndex)
    (h : K.inMemory.Reach (K.timely ok) x) : K.Reach ok x.state := by
  induction h with
  | init => exact .init
  | step hs hok hstep ih =>
    exact .step ih hok.1 (K.step_state (hs.mono fun _ _ _ _ _ => trivial) hok.2
      (fun i => hwithin _ _ i ih hok.1) hstep)

end Carrier

/-! ### The cluster -/

/-- Whose log an action of the cluster edits. -/
def editOf (w : World n C) : Action n C → Option (Fin n × Edit)
  | .start i _ => some (i, .append)
  | .snapshot i _ _ => some (i, .reslice)
  | .restart i => some (i, .load)
  | .handle k => w.calls[k]?.bind fun c =>
    match c.args with
    | .requestVote _ => none
    | .appendEntries _ => some (c.dst, .append)
    | .installSnapshot _ => some (c.dst, .reslice)
  | _ => none

section Edited
variable {w w' : World n C} {edit : Option (Fin n × Edit)} {j : Fin n} {node : Node n C}

theorem Edited.kept (hnodes : w'.nodes = (w.setNode j node).nodes)
    (h : node.raft.logs = (w.nodes j).raft.logs) : Edited edit w w' :=
  .of_same fun i => hnodes ▸ setNode_logs w j h i

/-- One server edits its log. -/
theorem Edited.one {e : Edit} (hnodes : w'.nodes = (w.setNode j node).nodes)
    (h : e = .reslice → node.raft.logs <:+ (w.nodes j).raft.logs) :
    Edited (some (j, e)) w w' := by
  refine ⟨fun i hi => ?_, fun i hi => ?_⟩
  · have hne : i ≠ j := fun heq => hi e (by rw [heq])
    rw [hnodes, setNode_ne w node hne]
  · cases hi
    rw [hnodes, setNode_self]
    exact h rfl

/-- To append may change the log in any way. -/
theorem Edited.append (hnodes : w'.nodes = (w.setNode j node).nodes) :
    Edited (some (j, .append)) w w' :=
  .one hnodes fun h => by cases h

end Edited

section Logs
variable (rf : Raft n C) {rf' : Raft n C}

theorem makeRaftState_suffix {upperbound : Nat} {saved : RaftState n C}
    (h : rf.makeRaftState upperbound = some saved) : saved.logs <:+ rf.logs := by
  unfold makeRaftState at h
  split at h
  · rename_i hlogs
    cases h
    exact List.suffix_refl _
  · split at h
    · cases h
      exact List.suffix_refl _
    · simp only [Option.bind_eq_bind, Option.bind_eq_some_iff, Option.pure_def,
        Option.some.injEq] at h
      obtain ⟨last, -, rfl⟩ := h
      exact List.drop_suffix _ _

theorem installSnapshot_suffix {args : InstallSnapshotArg n} {reply : InstallSnapshotReply}
    (h : rf.installSnapshot args = some (rf', reply)) : rf'.logs <:+ rf.logs := by
  unfold installSnapshot at h
  split at h
  · cases h
    exact List.suffix_refl _
  · dsimp only at h
    split at h
    · cases h
      rw [acceptLeader_frame]
      exact List.suffix_refl _
    · simp only [Option.bind_eq_bind, Option.bind_eq_some_iff, Option.pure_def,
        Option.some.injEq, Prod.mk.injEq] at h
      obtain ⟨saved, hsaved, rfl, -⟩ := h
      have hsuffix := makeRaftState_suffix _ hsaved
      rw [acceptLeader_frame] at hsuffix
      exact hsuffix

theorem snapshot_suffix {index : Nat} {data : Bytes} (h : rf.snapshot index data = some rf') :
    rf'.logs <:+ rf.logs := by
  unfold snapshot at h
  split at h
  · cases h
    exact List.suffix_refl _
  · simp only [Option.bind_eq_bind, Option.bind_eq_some_iff, Option.pure_def,
      Option.some.injEq] at h
    obtain ⟨saved, hsaved, rfl⟩ := h
    exact makeRaftState_suffix rf hsaved

end Logs

theorem sendHeartBeat_logs (w : World n C) (i j : Fin n) :
    ((w.sendHeartBeat i).nodes j).raft.logs = (w.nodes j).raft.logs := by
  unfold World.sendHeartBeat
  split
  · refine setNode_logs w i ?_ j
    rfl
  · rfl

theorem edited_of_stepped {w w' : World n C} {act : Action n C} (h : Stepped w act w') :
    Edited (editOf w act) w w' := by
  cases h with
  | idle => exact .of_same fun _ => rfl
  | panic i => exact .kept (j := i) rfl rfl
  | election i => exact .kept (j := i) rfl rfl
  | heartBeat i => exact .of_same (sendHeartBeat_logs w i)
  | replicateSnapshot => exact .of_same fun _ => rfl
  | replicateEntries => exact .of_same fun _ => rfl
  | commit i => exact .kept (j := i) rfl rfl
  | requestVote k c args hk hargs =>
    refine .kept (j := c.dst) rfl ?_
    rcases requestVote_shape (w.nodes c.dst).raft args with heq | ⟨-, heq⟩ | heq | ⟨-, heq⟩ <;>
      rw [heq] <;> rfl
  | appendEntries k c args hk hargs =>
    simp only [editOf, hk, hargs, Option.bind_some]
    exact .append rfl
  | installSnapshot k c args hk hargs _ rf reply hins =>
    simp only [editOf, hk, hargs, Option.bind_some]
    exact .one rfl fun _ => installSnapshot_suffix _ hins
  | lose => exact .of_same fun _ => rfl
  | returned => exact .of_same fun _ => rfl
  | returnedPanic k c => exact .kept (j := c.src) rfl rfl
  | voteCounted k c => exact .kept (j := c.src) rfl rfl
  | elected k c =>
    refine .of_same fun j => (sendHeartBeat_logs _ c.src j).trans ?_
    refine setNode_logs w c.src ?_ j
    rfl
  | voteRefused k c => exact .kept (j := c.src) rfl rfl
  | appendReturned k c args reply rf _ _ _ _ _ hret =>
    refine .kept (j := c.src) rfl ?_
    rcases appendEntriesReturned_moves hret with ⟨-, rfl⟩ | rfl | ⟨-, -, rfl⟩ | ⟨-, next, -, rfl⟩ <;>
      rfl
  | installReturned k c args reply =>
    refine .kept (j := c.src) rfl ?_
    rcases installSnapshotReturned_moves (w.nodes c.src).raft c.dst args
      (Reply.installSnapshot? reply) with ⟨-, heq⟩ | heq | ⟨-, -, heq⟩ <;> rw [heq] <;> rfl
  | start i => exact .append rfl
  | snapshot i index data _ rf hsnap => exact .one rfl fun _ => snapshot_suffix _ hsnap
  | applyTake i _ rf msgs last htake =>
    obtain ⟨taken, -, heq⟩ := Option.map_eq_some_iff.mp htake
    cases heq
    exact .kept (j := i) rfl rfl
  | applySend i => exact .kept (j := i) rfl rfl
  | applyDone i last =>
    refine .kept (j := i) rfl ?_
    cases last <;> rfl
  | restart i => exact .one rfl fun h => by cases h

/-- The cluster carries itself. -/
def ofCluster (n : Nat) (C : Type) : Carrier (World n C) (Action n C) n C where
  toSystem := cluster n C
  raft w := w
  setRaft _ w := w
  action := some
  edit := editOf
  raft_setRaft _ _ := rfl
  setRaft_raft _ := rfl
  init_logs _ := rfl
  step_applyTake w a w' i hact hstep := by
    cases hact
    simp only [cluster, step, Option.ite_none_right_eq_some, Option.some.injEq] at hstep
    exact hstep.2.symm
  edited _ _ _ hstep := edited_of_stepped (stepped hstep)

/-- Clusters of `n` servers, on arrays. -/
def processes (n : Nat) (C : Type) : System (InMemory (World n C) n C) (Scheduled (Action n C)) :=
  (ofCluster n C).inMemory

/-- A step on arrays is a step of the cluster once the requests are encoded, or `applyLog` with the
array of its log. -/
theorem processes_step {x x' : InMemory (World n C) n C} {a : Scheduled (Action n C)}
    (h : (processes n C).step x a = some x') :
    ∃ w', (cluster n C).step (x.memory.encode a.waits x.state) a.act = some w' ∧
      (x'.state = w' ∨ ∃ i slots,
        x'.state = (x.memory.encode a.waits x.state).applyTakeFrom i slots) := by
  obtain ⟨s', hs', rfl⟩ := (ofCluster n C).inMemory_step h
  obtain ⟨w', hw', rfl | ⟨i, -, rfl⟩⟩ := (ofCluster n C).stepIn_cases hs'
  · exact ⟨_, hw', .inl rfl⟩
  · exact ⟨w', hw', .inr ⟨i, _, rfl⟩⟩

/-- The action satisfies `ok`, and every request is encoded in time. -/
def timely (ok : World n C → Action n C → Prop) (x : InMemory (World n C) n C)
    (a : Scheduled (Action n C)) : Prop :=
  ok x.state a.act ∧ x.memory.InTime x.state a.waits

instance [DecidableEq C] (ok : World n C → Action n C → Prop) [∀ w act, Decidable (ok w act)]
    (x : InMemory (World n C) n C) (a : Scheduled (Action n C)) : Decidable (timely ok x a) :=
  inferInstanceAs (Decidable (_ ∧ _))

/-- When `applyLog` of a server runs, `CommitIndex` is not past the end of its log. -/
def appliesWithin (w : World n C) : Action n C → Prop
  | .applyTake i => (w.nodes i).raft.commitIndex ≤ (w.nodes i).raft.endIndex
  | _ => True

instance (w : World n C) : (a : Action n C) → Decidable (appliesWithin w a)
  | .applyTake i => inferInstanceAs (Decidable (_ ≤ (w.nodes i).raft.endIndex))
  | .electionTimeout _ | .heartBeat _ | .replicateLog _ _ _ | .updateCommitIndex _ _ | .handle _
  | .lose _ | .ret _ | .start _ _ | .snapshot _ _ _ | .applySend _ | .applyDone _
  | .restart _ => isTrue trivial

/-- A timely step within the log is a step of the cluster. -/
theorem step_of_within {x x' : InMemory (World n C) n C} {a : Scheduled (Action n C)}
    (h : (processes n C).Reach System.anyStep x) (hok : timely appliesWithin x a)
    (hstep : (processes n C).step x a = some x') :
    (cluster n C).step x.state a.act = some x'.state := by
  refine (ofCluster n C).step_state h hok.2 (fun i hact => ?_) hstep
  have hwithin := hok.1
  rw [Option.some.inj hact] at hwithin
  exact hwithin

/-- The action satisfies `ok`, and requests are encoded at any time. -/
def anytime (ok : World n C → Action n C → Prop) (x : InMemory (World n C) n C)
    (a : Scheduled (Action n C)) : Prop :=
  ok x.state a.act

instance (ok : World n C → Action n C → Prop) [∀ w act, Decidable (ok w act)]
    (x : InMemory (World n C) n C) (a : Scheduled (Action n C)) : Decidable (anytime ok x a) :=
  inferInstanceAs (Decidable (ok x.state a.act))

/-- Server `a` leads term 1 and has a request with three entries for server `d`. Before the request
is encoded, server `b` leads term 2 and replaces the log of server `a` by an entry of its own. The
array still holds the other two entries, so server `d` gets an entry of term 2 and two of term 1,
from the leader of term 1. -/
def overwritten (a b c d : Fin n) : List (Scheduled (Action n Nat)) := List.flatten
  [scheduled []
    [.electionTimeout a, .handle 0, .handle 1, .handle 2, .ret 0, .ret 1, .ret 2,
     .start a 10, .start a 11, .replicateLog a c 1, .handle 12, .start a 12,
     .replicateLog a d 1],   -- call 13
   scheduled [13]
    [.electionTimeout b, .handle 16, .handle 17, .handle 18, .ret 16, .ret 17, .ret 18,
     .start b 20, .replicateLog b a 2, .handle 26],
   scheduled [] [.handle 13]]

/-- Server `a` leads term 1 and has a request with three entries for server `e`. Before the request
is encoded, server `b` leads term 2 and replaces the log of server `a` by its first entry; then it
sends a snapshot up to index 2 and the entries at indices 3 and 4. The snapshot leaves server `a`
with the end of its array, so these two go where the request has its second and third entry. -/
def shifted (a b c d e f : Fin n) : List (Scheduled (Action n Nat)) := List.flatten
  [scheduled []
    [.electionTimeout a, .handle 0, .handle 1, .handle 2, .ret 0, .ret 1, .ret 2, .start a 10,
     .start a 11, .start a 12, .replicateLog a e 1],   -- call 12
   scheduled [12]
    [.electionTimeout b, .handle 14, .handle 15, .handle 17, .ret 14, .ret 15, .ret 17,
     .start b 20, .replicateLog b a 2, .handle 25, .start b 21, .start b 22, .replicateLog b c 2,
     .replicateLog b d 2, .replicateLog b f 2, .handle 26, .handle 27, .handle 28, .ret 26, .ret 27,
     .ret 28, .updateCommitIndex b 2, .heartBeat b, .handle 30, .applyTake b, .applySend b,
     .applySend b, .snapshot b 2 [], .replicateLog b a 2, .handle 35, .ret 35, .start b 23,
     .replicateLog b a 2, .handle 36],
   scheduled [] [.handle 12]]

/-- Server `c` then leads term 3 and gets an entry to server `e`, which goes on to deliver the
commands at indices 1 and 3. -/
def skipping (a b c d e f : Fin n) : List (Scheduled (Action n Nat)) := List.flatten
  [shifted a b c d e f, scheduled []
    [.electionTimeout c, .handle 39, .handle 41, .handle 42, .ret 39, .ret 41, .ret 42,
     .start c 30, .replicateLog c e 3, .handle 49, .applyTake e, .applySend e, .applySend e]]

end RaftLabs.Raft
