import RaftLabs.Raft.Safety
import RaftLabs.Raft.ServerSteps

/-! The messages on an apply channel.

`applyLog` takes what is committed under the lock, sends it without the lock, and takes the lock
again to move `LastApplied`. In between, `InstallSnapshot` may leave a snapshot for the next
round. The stream of a timely run stays in order as long as that snapshot is past everything
delivered and everything that `applyLog` is about to send, which `InstallSnapshot` does not
check. -/
namespace RaftLabs.Raft
open Lib World
variable {n : Nat} {C : Type} {w w' : World n C} {i : Fin n} {act : Action n C}
  {rf rf' : Raft n C} {node node' : Node n C}

/-! ### Streams -/

/-- The last index after a message, when the message is in order after `last`. -/
def advance (last : Nat) (m : ApplyMsg C) : Option Nat :=
  if m.commandValid then
    if m.commandIndex = last + 1 then some m.commandIndex else none
  else if m.snapshotValid ∧ last < m.snapshotIndex then some m.snapshotIndex
  else none

/-- The last index after a list of messages, when each is in order. -/
def stream (last : Nat) : List (ApplyMsg C) → Option Nat
  | [] => some last
  | m :: rest => (advance last m).bind fun next => stream next rest

theorem stream_append (last : Nat) (a b : List (ApplyMsg C)) :
    stream last (a ++ b) = (stream last a).bind fun next => stream next b := by
  induction a generalizing last with
  | nil => rfl
  | cons m rest ih =>
    simp only [List.cons_append, stream, Option.bind_assoc, ih]

theorem advance_cases {last next : Nat} {m : ApplyMsg C} (h : advance last m = some next) :
    (m.commandValid = true ∧ m.commandIndex = last + 1 ∧ next = m.commandIndex) ∨
    (m.commandValid = false ∧ last < m.snapshotIndex ∧ next = m.snapshotIndex) := by
  unfold advance at h
  cases hc : m.commandValid with
  | true =>
    simp only [hc, if_true, Option.ite_none_right_eq_some, Option.some.injEq] at h
    exact .inl ⟨rfl, h.1, h.2.symm⟩
  | false =>
    simp only [hc, Bool.false_eq_true, if_false, Option.ite_none_right_eq_some,
      Option.some.injEq] at h
    exact .inr ⟨rfl, h.1.2, h.2.symm⟩

theorem advance_lt {last next : Nat} {m : ApplyMsg C} (h : advance last m = some next) :
    last < next := by
  rcases advance_cases h with ⟨-, heq, rfl⟩ | ⟨-, hlt, rfl⟩ <;> omega

theorem stream_le {last next : Nat} {msgs : List (ApplyMsg C)} (h : stream last msgs = some next) :
    last ≤ next := by
  induction msgs generalizing last with
  | nil =>
    cases h
    exact Nat.le_refl _
  | cons m rest ih =>
    obtain ⟨mid, hm, hrest⟩ := Option.bind_eq_some_iff.mp h
    exact Nat.le_trans (Nat.le_of_lt (advance_lt hm)) (ih hrest)

/-- A stream of messages below a bound ends below it. -/
theorem stream_lt {last next bound : Nat} {msgs : List (ApplyMsg C)}
    (h : stream last msgs = some next) (hlast : last < bound)
    (hmsgs : ∀ m ∈ msgs, max m.commandIndex m.snapshotIndex < bound) : next < bound := by
  induction msgs generalizing last with
  | nil =>
    cases h
    exact hlast
  | cons m rest ih =>
    obtain ⟨mid, hm, hrest⟩ := Option.bind_eq_some_iff.mp h
    have hm' := hmsgs m List.mem_cons_self
    refine ih hrest ?_ fun m hm => hmsgs m (List.mem_cons_of_mem _ hm)
    rcases advance_cases hm with ⟨-, -, rfl⟩ | ⟨-, -, rfl⟩ <;> omega

/-- The commands of a contiguous log are in order. -/
theorem stream_commands {last : Nat} {logs : List (RaftLogEntry C)} (h : Contiguous last logs) :
    stream last (logs.map commandMsg) = some (last + logs.length) := by
  induction logs generalizing last with
  | nil => rfl
  | cons e rest ih =>
    obtain ⟨he, hrest⟩ := contiguous_cons.mp h
    have hadv : advance last (commandMsg e) = some (last + 1) := by
      simp [advance, commandMsg, he]
    rw [List.map_cons, stream, hadv, Option.bind_some, ih hrest, List.length_cons]
    congr 1
    omega

/-! ### Between the locked sections -/

/-- What `applyLog` has taken and not sent yet. -/
def Node.pending (node : Node n C) : List (ApplyMsg C) :=
  match node.applying with
  | none => []
  | some (msgs, _) => msgs

/-- A message speaks of a command or of a snapshot. -/
def Plain (m : ApplyMsg C) : Prop :=
  (m.commandValid = true → m.snapshotIndex = 0) ∧ (m.commandValid = false → m.commandIndex = 0)

/-- `sent` was delivered, and the stream ends at `last` once everything taken is sent. -/
structure Sending (node : Node n C) (sent : List (ApplyMsg C)) (last : Nat) : Prop where
  sent : stream 0 sent = some node.delivered
  pending : stream node.delivered node.pending = some last
  plain : ∀ m ∈ node.pending, Plain m
  taken : ∀ msgs k, node.applying = some (msgs, some k) → k = last

/-- `applyLog` will move `LastApplied` when it takes the lock again. -/
def Node.busy (node : Node n C) : Prop := ∃ msgs k, node.applying = some (msgs, some k)

/-- `LastApplied` is where the stream ends, unless it is still to be moved there; or a snapshot
past the end is waiting, and `LastApplied` is its index. -/
structure Waits (rf : Raft n C) (busy : Prop) (last : Nat) : Prop where
  applied_le : rf.snapshotMsg.snapshotIndex = 0 → rf.lastApplied ≤ last
  applied_eq : rf.snapshotMsg.snapshotIndex = 0 → ¬ busy → rf.lastApplied = last
  waiting : rf.snapshotMsg.snapshotIndex ≠ 0 → last < rf.snapshotMsg.snapshotIndex ∧
    rf.lastApplied = rf.snapshotMsg.snapshotIndex ∧ rf.snapshotMsg.snapshotValid = true ∧
    rf.snapshotMsg.commandValid = false ∧ rf.snapshotMsg.commandIndex = 0

/-- The snapshot is past everything delivered and everything taken. -/
def InstallsAhead (node : Node n C) (args : InstallSnapshotArg n) : Prop :=
  node.delivered < args.lastIncludedIndex ∧
    ∀ m ∈ node.pending, max m.commandIndex m.snapshotIndex < args.lastIncludedIndex

instance (node : Node n C) (args : InstallSnapshotArg n) : Decidable (InstallsAhead node args) :=
  inferInstanceAs (Decidable (_ ∧ ∀ m ∈ node.pending, _))

/-- The step restarts no server and takes over no snapshot that the service has passed. -/
def movesAhead (w : World n C) (act : Action n C) : Prop :=
  crashFree w act ∧ w.handles (OnInstall InstallsAhead) act

instance (w : World n C) (act : Action n C) : Decidable (movesAhead w act) :=
  inferInstanceAs (Decidable (crashFree w act ∧ w.handles (OnInstall InstallsAhead) act))

/-! ### Methods -/

section Methods
variable {busy : Prop} {last : Nat}

theorem Waits.congr (h : Waits rf busy last) (happlied : rf'.lastApplied = rf.lastApplied)
    (hmsg : rf'.snapshotMsg = rf.snapshotMsg) : Waits rf' busy last := by
  refine ⟨?_, ?_, ?_⟩ <;> rw [hmsg, happlied]
  · exact h.applied_le
  · exact h.applied_eq
  · exact h.waiting

/-- `LastApplied` may be raised to an index the stream has reached. -/
theorem Waits.raise (h : Waits rf busy last) {index : Nat} (hle : index ≤ last)
    (happlied : rf'.lastApplied = max rf.lastApplied index)
    (hmsg : rf'.snapshotMsg = rf.snapshotMsg) : Waits rf' busy last := by
  refine ⟨?_, ?_, ?_⟩ <;> rw [hmsg, happlied]
  · intro hnone
    have := h.applied_le hnone
    omega
  · intro hnone hidle
    have := h.applied_eq hnone hidle
    omega
  · intro hsome
    obtain ⟨hlt, happ, hplain⟩ := h.waiting hsome
    exact ⟨hlt, by omega, hplain⟩

/-- A snapshot past the end of the stream takes the place of one that was waiting. -/
theorem Waits.install (h : Waits rf busy last) {args : InstallSnapshotArg n}
    {saved : RaftState n C} (hinst : Installs rf args) (hlt : last < args.lastIncludedIndex) :
    Waits (rf.installed args saved) busy last := by
  obtain ⟨-, hsnap, hmsg⟩ := hinst
  have hpos : args.lastIncludedIndex ≠ 0 := by omega
  refine ⟨fun hnone => absurd hnone hpos, fun hnone => absurd hnone hpos, fun _ =>
    ⟨hlt, ?_, rfl, rfl, rfl⟩⟩
  show max rf.lastApplied args.lastIncludedIndex = args.lastIncludedIndex
  by_cases hnone : rf.snapshotMsg.snapshotIndex = 0
  · have := h.applied_le hnone
    omega
  · have := (h.waiting hnone).2.1
    omega

theorem LogStep.waits {sent : List (ApplyMsg C)} (h : LogStep w i act rf')
    (hok : w.handles (OnInstall InstallsAhead) act) (hsend : Sending (w.nodes i) sent last)
    (hwaits : Waits (w.nodes i).raft busy last) : Waits rf' busy last := by
  cases h with
  | kept hr => exact hwaits.congr hr.applied hr.snapshotMsg
  | merged _ _ _ _ _ _ _ hr => exact hwaits.congr hr.applied hr.snapshotMsg
  | added hr => exact hwaits.congr hr.applied hr.snapshotMsg
  | compacted hindex => exact hwaits.raise (Nat.le_trans hindex (stream_le hsend.pending)) rfl rfl
  | installed hk hdst hargs hinst =>
    obtain ⟨hdelivered, hpending⟩ := hok.install hk hdst hargs hinst
    exact hwaits.install hinst (stream_lt hsend.pending hdelivered hpending)

end Methods

/-! ### The loop of applyLog -/

/-- The entries taken follow `LastApplied`. -/
theorem contiguous_applyLogs {logs : List (RaftLogEntry C)}
    (hcont : Contiguous rf.snapshotLastIncludedIndex rf.logs) (h : applyLogs rf = some logs) :
    Contiguous rf.lastApplied logs := by
  unfold applyLogs at h
  split at h
  · obtain ⟨hlo, hle, hhi, rfl⟩ := slice?_eq_some h
    intro p e he
    rw [List.getElem?_drop, List.getElem?_take] at he
    split at he
    · have := hcont _ e he
      omega
    · cases he
  · cases h
    intro p e he
    cases he

/-- The index of the last entry taken. -/
theorem last_of_contiguous {logs : List (RaftLogEntry C)} {last k : Nat}
    (hcont : Contiguous last logs) (h : logs.getLast?.map (·.index) = some k) :
    k = last + logs.length := by
  obtain ⟨e, he, rfl⟩ := Option.map_eq_some_iff.mp h
  rw [List.getLast?_eq_getElem?] at he
  have hlt := (List.getElem?_eq_some_iff.mp he).1
  have := hcont _ e he
  omega

/-- No command that is taken is dropped: the waiting snapshot ends where they start. -/
theorem applyMsgs_eq {logs : List (RaftLogEntry C)} (hcont : Contiguous rf.lastApplied logs)
    (hwait : rf.snapshotMsg.snapshotIndex ≠ 0 →
      rf.lastApplied = rf.snapshotMsg.snapshotIndex) :
    applyMsgs rf logs =
      if rf.snapshotMsg.snapshotIndex ≠ 0 then rf.snapshotMsg :: logs.map commandMsg
      else logs.map commandMsg := by
  have hall : (logs.map commandMsg).filter (fun m => rf.snapshotMsg.snapshotIndex == 0 ||
      decide (rf.snapshotMsg.snapshotIndex < m.commandIndex)) = logs.map commandMsg := by
    rw [List.filter_eq_self]
    intro m hm
    obtain ⟨e, he, rfl⟩ := List.mem_map.mp hm
    by_cases hnone : rf.snapshotMsg.snapshotIndex = 0
    · simp [hnone]
    · obtain ⟨p, hp⟩ := List.getElem?_of_mem he
      have hindex := hcont p e hp
      have hsnap := hwait hnone
      have hlt : rf.snapshotMsg.snapshotIndex < (commandMsg e).commandIndex := by
        show _ < e.index
        omega
      simp [hlt]
  unfold applyMsgs queue
  dsimp only
  rw [hall]

/-- A waiting snapshot comes first and ends at `LastApplied`, where the commands start. -/
theorem stream_applyMsgs {logs : List (RaftLogEntry C)} {busy : Prop} {last : Nat}
    (hcont : Contiguous rf.lastApplied logs) (hwaits : Waits rf busy last) (hidle : ¬ busy) :
    stream last (applyMsgs rf logs) = some (rf.lastApplied + logs.length) := by
  rw [applyMsgs_eq hcont fun hsome => (hwaits.waiting hsome).2.1]
  split
  · rename_i hsome
    obtain ⟨hlt, happ, hvalid, hcommand, -⟩ := hwaits.waiting hsome
    rw [stream, advance, hcommand, if_neg Bool.false_ne_true, if_pos ⟨hvalid, hlt⟩,
      Option.bind_some, ← happ]
    exact stream_commands hcont
  · rename_i hnone
    rw [← hwaits.applied_eq (not_not.mp hnone) hidle]
    exact stream_commands hcont

theorem plain_applyMsgs {logs : List (RaftLogEntry C)} {busy : Prop} {last : Nat}
    (hcont : Contiguous rf.lastApplied logs) (hwaits : Waits rf busy last) :
    ∀ m ∈ applyMsgs rf logs, Plain m := by
  have hplain : ∀ m ∈ logs.map commandMsg, Plain m := by
    intro m hm
    obtain ⟨e, -, rfl⟩ := List.mem_map.mp hm
    exact ⟨fun _ => rfl, nofun⟩
  rw [applyMsgs_eq hcont fun hsome => (hwaits.waiting hsome).2.1]
  split
  · rename_i hsome
    obtain ⟨-, -, -, hcommand, hzero⟩ := hwaits.waiting hsome
    intro m hm
    rcases List.mem_cons.mp hm with rfl | hm
    · exact ⟨fun hc => absurd (hcommand.symm.trans hc) Bool.false_ne_true, fun _ => hzero⟩
    · exact hplain m hm
  · exact hplain

/-- The server is in order. -/
def Flows (node : Node n C) (sent : List (ApplyMsg C)) : Prop :=
  ∃ last, Sending node sent last ∧ Waits node.raft node.busy last

section Loop
variable {sent msgs : List (ApplyMsg C)} {last : Option Nat}

/-- The first locked section: the messages taken continue the stream. -/
theorem Flows.applyTake (h : Flows node sent)
    (hcont : Contiguous node.raft.snapshotLastIncludedIndex node.raft.logs)
    (hidle : node.applying = none) (htake : node.raft.applyLog = some (rf', msgs, last)) :
    Flows { node with raft := rf', applying := some (msgs, last) } sent := by
  obtain ⟨e, hsend, hwaits⟩ := h
  obtain ⟨logs, hlogs, heq⟩ := Option.map_eq_some_iff.mp htake
  cases heq
  have hrest := contiguous_applyLogs hcont hlogs
  have hnotBusy : ¬ node.busy := by
    rintro ⟨msgs, k, hbusy⟩
    rw [hidle] at hbusy
    cases hbusy
  have hend : node.delivered = e := by
    have hp := hsend.pending
    rw [Node.pending, hidle] at hp
    exact Option.some.inj hp
  refine ⟨node.raft.lastApplied + logs.length,
    ⟨hsend.sent, ?_, plain_applyMsgs hrest hwaits, ?_⟩, ⟨?_, ?_, ?_⟩⟩
  · show stream node.delivered (applyMsgs node.raft logs) = _
    rw [hend]
    exact stream_applyMsgs hrest hwaits hnotBusy
  · intro msgs k hk
    exact last_of_contiguous hrest (Prod.mk.inj (Option.some.inj hk)).2
  · exact fun _ => Nat.le_add_right _ _
  · intro _ hnot
    show node.raft.lastApplied = _
    have hnil : logs = [] := by
      by_contra hne
      exact hnot ⟨_, _, congrArg (fun k => some (_, k))
        (congrArg (Option.map _) (List.getLast?_eq_getLast_of_ne_nil hne))⟩
    rw [hnil]
    rfl
  · exact fun hsome => absurd rfl hsome

/-- The service receives the next message. -/
theorem Flows.applySend {m : ApplyMsg C} (h : Flows node sent)
    (happlying : node.applying = some (m :: msgs, last)) :
    Flows { node with
      applying := some (msgs, last)
      delivered := max node.delivered (max m.commandIndex m.snapshotIndex) } (sent ++ [m]) := by
  obtain ⟨e, hsend, hwaits⟩ := h
  have hpending : node.pending = m :: msgs := by rw [Node.pending, happlying]
  have hp := hsend.pending
  have hplain := hsend.plain
  rw [hpending] at hp hplain
  obtain ⟨next, hadv, hrest⟩ := Option.bind_eq_some_iff.mp hp
  have hm := hplain m List.mem_cons_self
  have hnext : max node.delivered (max m.commandIndex m.snapshotIndex) = next := by
    rcases advance_cases hadv with ⟨hc, hindex, rfl⟩ | ⟨hc, hlt, rfl⟩
    · have := hm.1 hc
      omega
    · have := hm.2 hc
      omega
  rw [hnext]
  refine ⟨e, ⟨?_, hrest, fun m hm => hplain m (List.mem_cons_of_mem _ hm), ?_⟩,
    ⟨hwaits.applied_le, fun hnone hnot => hwaits.applied_eq hnone ?_, hwaits.waiting⟩⟩
  · rw [stream_append, hsend.sent, Option.bind_some, stream, hadv]
    rfl
  · intro msgs' k hk
    cases hk
    exact hsend.taken _ k happlying
  · rintro ⟨msgs', k, hbusy⟩
    rw [happlying] at hbusy
    cases hbusy
    exact hnot ⟨_, k, rfl⟩

/-- The second locked section: `LastApplied` catches up with the stream. -/
theorem Flows.applyDone (h : Flows node sent) (happlying : node.applying = some ([], last)) :
    Flows { node with raft := node.raft.applied last, applying := none } sent := by
  obtain ⟨e, hsend, hwaits⟩ := h
  have hpending : node.pending = [] := by rw [Node.pending, happlying]
  have hp := hsend.pending
  rw [hpending] at hp
  refine ⟨e, ⟨hsend.sent, hp, nofun, nofun⟩, ?_⟩
  cases last with
  | none =>
    refine ⟨hwaits.applied_le, fun hnone _ => hwaits.applied_eq hnone ?_, hwaits.waiting⟩
    rintro ⟨msgs, k, hbusy⟩
    rw [happlying] at hbusy
    cases hbusy
  | some k =>
    have hk := hsend.taken _ k happlying
    refine ⟨fun hnone => ?_, fun hnone _ => ?_, fun hsome => ?_⟩
    · show max node.raft.lastApplied k ≤ e
      have := hwaits.applied_le hnone
      omega
    · show max node.raft.lastApplied k = e
      have := hwaits.applied_le hnone
      omega
    · obtain ⟨hlt, happ, hplain⟩ := hwaits.waiting hsome
      refine ⟨hlt, ?_, hplain⟩
      show max node.raft.lastApplied k = node.raft.snapshotMsg.snapshotIndex
      omega

end Loop

theorem ServerStep.flows {sent msgs : List (ApplyMsg C)} (h : ServerStep w i act node msgs)
    (hcont : Contiguous (w.nodes i).raft.snapshotLastIncludedIndex (w.nodes i).raft.logs)
    (hok : movesAhead w act) (hflows : Flows (w.nodes i) sent) : Flows node (sent ++ msgs) := by
  cases h with
  | method hm happlying hdelivered =>
    obtain ⟨last, hsend, hwaits⟩ := hflows
    have hwaits' := hm.logStep.waits hok.2 hsend hwaits
    have hpending : node.pending = (w.nodes i).pending := by
      rw [Node.pending, Node.pending, happlying]
    rw [List.append_nil]
    refine ⟨last, ⟨?_, ?_, ?_, ?_⟩, ?_⟩
    · rw [hdelivered]
      exact hsend.sent
    · rw [hdelivered, hpending]
      exact hsend.pending
    · rw [hpending]
      exact hsend.plain
    · rw [happlying]
      exact hsend.taken
    · rw [Node.busy, happlying]
      exact hwaits'
  | applyTake hidle htake =>
    rw [List.append_nil]
    exact hflows.applyTake hcont hidle htake
  | applySend happlying => exact hflows.applySend happlying
  | applyDone happlying =>
    rw [List.append_nil]
    exact hflows.applyDone happlying
  | restart => exact absurd hok.1 id

theorem flows_reach (h : (cluster n C).Reach movesAhead w) (i : Fin n) :
    Flows (w.nodes i) (deliveries i w.trace) := by
  induction h with
  | init =>
    exact ⟨0, ⟨rfl, rfl, nofun, nofun⟩, ⟨fun _ => Nat.le_refl _, fun _ _ => rfl,
      fun hsome => absurd rfl hsome⟩⟩
  | step hreach hok hstep ih =>
    have hfree : (cluster n C).Reach crashFree _ := hreach.mono fun _ _ _ _ hok => hok.1
    obtain ⟨-, a, hs, hrel⟩ := implements_reach (recovers_of_crashFree hfree)
    obtain ⟨msgs, hserver, htrace⟩ := serverStep_of_step hstep i
    rw [htrace]
    exact hserver.flows (hrel.contiguous hs i) hok ih

theorem recovers_of_movesAhead (h : (cluster n C).Reach movesAhead w) :
    (cluster n C).Reach recovers w :=
  recovers_of_crashFree (h.mono fun _ _ _ _ hok => hok.1)

/-- **Apply streams are in order.** In a timely run without a crash in which no server takes over a
snapshot that its service has passed, every command message of a server is the one after the
last index, and every snapshot message is past it. -/
theorem stream_ordered {x : InMemory (World n C) n C}
    (h : (processes n C).Reach (timely movesAhead) x) (i : Fin n) :
    stream 0 (deliveries i x.state.trace) = some (x.state.nodes i).delivered := by
  have hreach := reach_of_timely (fun _ => recovers_of_movesAhead) h
  obtain ⟨last, hsend, -⟩ := flows_reach hreach i
  exact hsend.sent

/-- Server `i` leads term 1, commits two entries and takes a snapshot at index 1. Server `k` gets
the snapshot and then the other entry. -/
def snapshotThenEntry (i j k : Fin n) : List (Action n Nat) :=
  [.electionTimeout i, .handle 0, .ret 0, .handle 3, .start i 10, .start i 11, .replicateLog i j 1,
   .handle 4, .ret 4, .updateCommitIndex i 1, .applyTake i, .applySend i, .snapshot i 1 [],
   .replicateLog i k 1, .handle 5, .ret 5, .applyTake k, .applySend k, .applyDone k,
   .replicateLog i k 1, .handle 6, .applyTake k, .applySend k]

theorem snapshotThenEntry_runs :
    (((processes 3 Nat).runWhere (timely movesAhead) (processes 3 Nat).init
        (scheduled [] (snapshotThenEntry 0 1 2))).map fun x =>
      decide ((x.state.nodes 2).delivered = 2 ∧ (deliveries 2 x.state.trace).length = 2)) =
      some true := by
  decide +kernel

theorem stream_ordered_snapshotThenEntry : ∃ x : InMemory (World 3 Nat) 3 Nat,
    (processes 3 Nat).Reach (timely movesAhead) x ∧ (deliveries 2 x.state.trace).length = 2 ∧
    stream 0 (deliveries 2 x.state.trace) = some 2 := by
  obtain ⟨x, hreach, hdelivered, hlength⟩ := System.exists_reach_of_runWhere snapshotThenEntry_runs
  exact ⟨x, hreach, hlength, (stream_ordered hreach 2).trans (congrArg some hdelivered)⟩

/-- The entries reach server `k` first, and the snapshot after it has delivered them. -/
def entriesThenSnapshot (i j k : Fin n) : List (Action n Nat) :=
  [.electionTimeout i, .handle 0, .ret 0, .start i 10, .start i 11, .replicateLog i j 1, .handle 4,
   .ret 4, .updateCommitIndex i 1, .applyTake i, .applySend i, .replicateLog i k 1,
   .snapshot i 1 [], .replicateLog i k 1,
   .handle 5, .applyTake k, .applySend k, .applySend k, .applyDone k,
   .handle 6, .applyTake k, .applySend k]

theorem entriesThenSnapshot_runs :
    (((processes 3 Nat).runWhere (timely crashFree) (processes 3 Nat).init
        (scheduled [] (entriesThenSnapshot 0 1 2))).map fun x =>
      decide (stream 0 (deliveries 2 x.state.trace) = none)) = some true := by
  decide +kernel

/-- Timely runs without a crash can deliver a snapshot that the service has passed. -/
theorem stream_unordered : ¬ ∀ x : InMemory (World 3 Nat) 3 Nat,
    (processes 3 Nat).Reach (timely crashFree) x →
      ∀ i, (stream 0 (deliveries i x.state.trace)).isSome := by
  intro hall
  obtain ⟨x, hreach, hx⟩ := System.exists_reach_of_runWhere entriesThenSnapshot_runs
  have hsome := hall x hreach 2
  rw [hx] at hsome
  cases hsome

theorem skipping_streams :
    (((processes 7 Nat).runWhere (anytime movesAhead) (processes 7 Nat).init
        (skipping 0 1 2 3 4 5)).map fun x =>
      decide (stream 0 (deliveries 4 x.state.trace) = none)) = some true := by
  decide +kernel

/-- And runs that encode a request late can skip a command. -/
theorem stream_unordered_of_shifted : ¬ ∀ x : InMemory (World 7 Nat) 7 Nat,
    (processes 7 Nat).Reach (anytime movesAhead) x →
      ∀ i, (stream 0 (deliveries i x.state.trace)).isSome := by
  intro hall
  obtain ⟨x, hreach, hx⟩ := System.exists_reach_of_runWhere skipping_streams
  have hsome := hall x hreach 4
  rw [hx] at hsome
  cases hsome

end RaftLabs.Raft
