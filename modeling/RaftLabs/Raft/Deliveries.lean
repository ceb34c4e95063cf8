import RaftLabs.Raft.ApplyStream
import RaftLabs.Raft.Contiguity

/-! What a service sees of its apply channel, whatever crashes.

A snapshot message may be stale: it may name an index that the service has passed. A service
that skips such a message is left with a stream without a gap and without a repetition. Every
command it receives is the one after everything it has, from the start of the server to its next
restart, and a restart begins at the snapshot on disk: `LastApplied` is where the stream will end
once the snapshot that is waiting has been sent. Crashes do not matter as long as `applyLog` finds
`CommitIndex` within its log; past the end of the log it would go on with what the array still
holds. -/
namespace RaftLabs.Raft
open Lib World
variable {n : Nat} {C : Type} {w w' : World n C} {i : Fin n} {act : Action n C}
  {rf rf' : Raft n C} {node node' : Node n C}

/-! ### Streams with stale snapshots -/

/-- Where a service that has everything up to `last` stands after a message; `none` when a
command is not the next one. -/
def receive (last : Nat) (m : ApplyMsg C) : Option Nat :=
  if m.commandValid then if m.commandIndex = last + 1 then some m.commandIndex else none
  else if m.snapshotValid then some (max last m.snapshotIndex)
  else none

/-- Where it stands after a list of messages. -/
def receiveAll (last : Nat) : List (ApplyMsg C) → Option Nat
  | [] => some last
  | m :: rest => (receive last m).bind fun next => receiveAll next rest

theorem receiveAll_append (last : Nat) (a b : List (ApplyMsg C)) :
    receiveAll last (a ++ b) = (receiveAll last a).bind fun next => receiveAll next b := by
  induction a generalizing last with
  | nil => rfl
  | cons m rest ih => simp only [List.cons_append, receiveAll, Option.bind_assoc, ih]

theorem receive_cases {last next : Nat} {m : ApplyMsg C} (h : receive last m = some next) :
    (m.commandValid = true ∧ m.commandIndex = last + 1 ∧ next = last + 1) ∨
    (m.commandValid = false ∧ m.snapshotValid = true ∧ next = max last m.snapshotIndex) := by
  unfold receive at h
  cases hc : m.commandValid with
  | true =>
    simp only [hc, if_true, Option.ite_none_right_eq_some, Option.some.injEq] at h
    exact .inl ⟨rfl, h.1, h.2 ▸ h.1⟩
  | false =>
    simp only [hc, Bool.false_eq_true, if_false, Option.ite_none_right_eq_some,
      Option.some.injEq] at h
    exact .inr ⟨rfl, h.1, h.2.symm⟩

theorem receive_le {last next : Nat} {m : ApplyMsg C} (h : receive last m = some next) :
    last ≤ next := by
  rcases receive_cases h with ⟨-, -, rfl⟩ | ⟨-, -, rfl⟩ <;> omega

theorem receiveAll_le {last next : Nat} {msgs : List (ApplyMsg C)}
    (h : receiveAll last msgs = some next) : last ≤ next := by
  induction msgs generalizing last with
  | nil =>
    cases h
    exact Nat.le_refl _
  | cons m rest ih =>
    obtain ⟨mid, hm, hrest⟩ := Option.bind_eq_some_iff.mp h
    exact (receive_le hm).trans (ih hrest)

/-- A message in order is received. -/
theorem receive_of_advance {last next : Nat} {m : ApplyMsg C} (h : advance last m = some next) :
    receive last m = some next := by
  unfold advance at h
  unfold receive
  cases hc : m.commandValid with
  | true => simpa only [hc, if_true] using h
  | false =>
    simp only [hc, Bool.false_eq_true, if_false, Option.ite_none_right_eq_some,
      Option.some.injEq] at h
    obtain ⟨⟨hvalid, hlt⟩, rfl⟩ := h
    simp [hvalid, Nat.max_eq_right (Nat.le_of_lt hlt)]

theorem receiveAll_of_stream {last next : Nat} {msgs : List (ApplyMsg C)}
    (h : stream last msgs = some next) : receiveAll last msgs = some next := by
  induction msgs generalizing last with
  | nil => exact h
  | cons m rest ih =>
    obtain ⟨mid, hm, hrest⟩ := Option.bind_eq_some_iff.mp h
    rw [receiveAll, receive_of_advance hm, Option.bind_some, ih hrest]

/-! ### Between the locked sections -/

/-- A message that is a snapshot and nothing else. -/
structure IsSnapshot (m : ApplyMsg C) : Prop where
  valid : m.snapshotValid = true
  command : m.commandValid = false
  index : m.commandIndex = 0

theorem receive_snapshot {m : ApplyMsg C} (h : IsSnapshot m) (last : Nat) :
    receive last m = some (max last m.snapshotIndex) := by
  simp [receive, h.valid, h.command]

/-- Once everything taken is sent, the stream ends at `last`. -/
structure Ends (node : Node n C) (last : Nat) : Prop where
  pending : receiveAll node.delivered node.pending = some last
  plain : ∀ m ∈ node.pending, Plain m
  taken : ∀ msgs k, node.applying = some (msgs, some k) → k = last

/-- `LastApplied` is where the stream ends after the snapshot that is waiting, unless it is still
to be moved there. -/
structure Keeps (rf : Raft n C) (busy : Prop) (last : Nat) : Prop where
  snapshot : rf.snapshotMsg.snapshotIndex ≠ 0 → IsSnapshot rf.snapshotMsg
  waiting : rf.snapshotMsg.snapshotIndex ≤ rf.lastApplied
  applied_le : rf.lastApplied ≤ max last rf.snapshotMsg.snapshotIndex
  applied_eq : ¬ busy → rf.lastApplied = max last rf.snapshotMsg.snapshotIndex

/-- With nothing taken the stream ends where it stands. -/
theorem ends_idle (h : node.applying = none) : Ends node node.delivered := by
  have hpending : node.pending = [] := by rw [Node.pending, h]
  constructor
  case pending =>
    rw [hpending]
    rfl
  case plain => simp [hpending]
  case taken => simp [h]

/-- The server is in order. -/
def Runs (node : Node n C) : Prop := ∃ last, Ends node last ∧ Keeps node.raft node.busy last

section Methods
variable {busy : Prop} {last : Nat}

theorem Keeps.congr (h : Keeps rf busy last) (happlied : rf'.lastApplied = rf.lastApplied)
    (hmsg : rf'.snapshotMsg = rf.snapshotMsg) : Keeps rf' busy last := by
  refine ⟨?_, ?_, ?_, ?_⟩ <;> rw [hmsg]
  · exact h.snapshot
  · rw [happlied]
    exact h.waiting
  · rw [happlied]
    exact h.applied_le
  · rw [happlied]
    exact h.applied_eq

/-- `LastApplied` may be raised to an index the stream has reached. -/
theorem Keeps.raise (h : Keeps rf busy last) {index : Nat} (hle : index ≤ last)
    (happlied : rf'.lastApplied = max rf.lastApplied index)
    (hmsg : rf'.snapshotMsg = rf.snapshotMsg) : Keeps rf' busy last := by
  have hwaiting := h.waiting
  have hbound := h.applied_le
  refine ⟨?_, ?_, ?_, ?_⟩ <;> rw [hmsg]
  · exact h.snapshot
  · omega
  · omega
  · intro hidle
    have := h.applied_eq hidle
    omega

/-- A snapshot takes the place of one that was waiting, stale or not. -/
theorem Keeps.install (h : Keeps rf busy last) {args : InstallSnapshotArg n}
    {saved : RaftState n C} (hinst : Installs rf args) :
    Keeps (rf.installed args saved) busy last := by
  obtain ⟨-, -, hmsg⟩ := hinst
  have hbound := h.applied_le
  refine ⟨fun _ => ⟨rfl, rfl, rfl⟩, Nat.le_max_right _ _, ?_, fun hidle => ?_⟩
  · show max rf.lastApplied args.lastIncludedIndex ≤ max last args.lastIncludedIndex
    omega
  · show max rf.lastApplied args.lastIncludedIndex = max last args.lastIncludedIndex
    have := h.applied_eq hidle
    omega

theorem LogStep.keeps (h : LogStep w i act rf') (hends : Ends (w.nodes i) last)
    (hkeeps : Keeps (w.nodes i).raft busy last) : Keeps rf' busy last := by
  cases h with
  | kept hr => exact hkeeps.congr hr.applied hr.snapshotMsg
  | merged _ _ _ _ _ _ _ hr => exact hkeeps.congr hr.applied hr.snapshotMsg
  | added hr => exact hkeeps.congr hr.applied hr.snapshotMsg
  | compacted hindex => exact hkeeps.raise (hindex.trans (receiveAll_le hends.pending)) rfl rfl
  | installed _ _ _ hinst => exact hkeeps.install hinst

end Methods

/-! ### The loop of applyLog -/

section Loop
variable {msgs : List (ApplyMsg C)} {last : Option Nat}

/-- A waiting snapshot comes first; the commands start just above `LastApplied`. -/
theorem receiveAll_applyMsgs {logs : List (RaftLogEntry C)} {busy : Prop} {last : Nat}
    (hcont : Contiguous rf.lastApplied logs) (hkeeps : Keeps rf busy last) (hidle : ¬ busy) :
    receiveAll last (applyMsgs rf logs) = some (rf.lastApplied + logs.length) := by
  have happlied := hkeeps.applied_eq hidle
  have hcommands := receiveAll_of_stream (stream_commands hcont)
  have hall : (logs.map commandMsg).filter (fun m => rf.snapshotMsg.snapshotIndex == 0 ||
      decide (rf.snapshotMsg.snapshotIndex < m.commandIndex)) = logs.map commandMsg := by
    rw [List.filter_eq_self]
    intro m hm
    obtain ⟨e, he, rfl⟩ := List.mem_map.mp hm
    obtain ⟨p, hp⟩ := List.getElem?_of_mem he
    have hindex := hcont p e hp
    have hwaiting := hkeeps.waiting
    have hlt : rf.snapshotMsg.snapshotIndex < (commandMsg e).commandIndex := by
      show _ < e.index
      omega
    simp [hlt]
  unfold applyMsgs queue
  dsimp only
  rw [hall]
  split
  · rename_i hsome
    rw [receiveAll, receive_snapshot (hkeeps.snapshot hsome), Option.bind_some, ← happlied]
    exact hcommands
  · rename_i hnone
    rw [not_not.mp hnone, Nat.max_zero] at happlied
    rw [← happlied]
    exact hcommands

theorem plain_commandMsg (e : RaftLogEntry C) : Plain (commandMsg e) :=
  ⟨fun _ => rfl, fun h => absurd h (by simp [commandMsg])⟩

/-- What `applyLog` sends: the snapshot that is waiting, and commands of the log. -/
theorem mem_applyMsgs {logs : List (RaftLogEntry C)} {m : ApplyMsg C} (h : m ∈ applyMsgs rf logs) :
    (rf.snapshotMsg.snapshotIndex ≠ 0 ∧ m = rf.snapshotMsg) ∨ ∃ e ∈ logs, m = commandMsg e := by
  have hcommand : ∀ m ∈ (logs.map commandMsg).filter (fun m => rf.snapshotMsg.snapshotIndex == 0 ||
      decide (rf.snapshotMsg.snapshotIndex < m.commandIndex)), ∃ e ∈ logs, m = commandMsg e := by
    intro m hm
    obtain ⟨e, he, rfl⟩ := List.mem_map.mp (List.mem_filter.mp hm).1
    exact ⟨e, he, rfl⟩
  unfold applyMsgs queue at h
  dsimp only at h
  split at h
  · rcases List.mem_cons.mp h with heq | hmem
    · exact .inl ⟨‹_›, heq⟩
    · exact .inr (hcommand m hmem)
  · exact .inr (hcommand m h)

/-- The first locked section: the messages taken continue the stream. -/
theorem Runs.applyTake (h : Runs node)
    (hcont : Contiguous node.raft.snapshotLastIncludedIndex node.raft.logs)
    (hidle : node.applying = none) (htake : node.raft.applyLog = some (rf', msgs, last)) :
    Runs { node with raft := rf', applying := some (msgs, last) } := by
  obtain ⟨e, hends, hkeeps⟩ := h
  obtain ⟨logs, hlogs, heq⟩ := Option.map_eq_some_iff.mp htake
  cases heq
  have hrest := contiguous_applyLogs hcont hlogs
  have hnotBusy : ¬ node.busy := by
    rintro ⟨msgs, k, hbusy⟩
    rw [hidle] at hbusy
    cases hbusy
  have hend : node.delivered = e := by
    have hp := hends.pending
    rw [Node.pending, hidle] at hp
    exact Option.some.inj hp
  refine ⟨node.raft.lastApplied + logs.length, ⟨?_, ?_, ?_⟩,
    ⟨fun hsome => absurd rfl hsome, Nat.zero_le _, ?_, ?_⟩⟩
  · show receiveAll node.delivered (applyMsgs node.raft logs) = _
    rw [hend]
    exact receiveAll_applyMsgs hrest hkeeps hnotBusy
  · intro m hm
    rcases mem_applyMsgs hm with ⟨hsome, rfl⟩ | ⟨entry, -, rfl⟩
    · have hsnap := hkeeps.snapshot hsome
      exact ⟨fun hc => absurd (hsnap.command.symm.trans hc) Bool.false_ne_true, fun _ => hsnap.index⟩
    · exact plain_commandMsg entry
  · intro msgs k hk
    exact last_of_contiguous hrest (Prod.mk.inj (Option.some.inj hk)).2
  · exact (Nat.le_add_right _ _).trans (Nat.le_max_left _ _)
  · intro hnot
    have hnil : logs = [] := by
      by_contra hne
      exact hnot ⟨_, _, congrArg (fun k => some (_, k))
        (congrArg (Option.map _) (List.getLast?_eq_getLast_of_ne_nil hne))⟩
    subst hnil
    exact (Nat.max_zero _).symm

/-- The service receives the next message. -/
theorem Runs.applySend {m : ApplyMsg C} (h : Runs node)
    (happlying : node.applying = some (m :: msgs, last)) :
    receive node.delivered m = some (max node.delivered (max m.commandIndex m.snapshotIndex)) ∧
      Runs { node with
        applying := some (msgs, last)
        delivered := max node.delivered (max m.commandIndex m.snapshotIndex) } := by
  obtain ⟨e, hends, hkeeps⟩ := h
  have hpending : node.pending = m :: msgs := by rw [Node.pending, happlying]
  have hp := hends.pending
  have hplain := hends.plain
  rw [hpending] at hp hplain
  obtain ⟨next, hreceive, hrest⟩ := Option.bind_eq_some_iff.mp hp
  have hm := hplain m List.mem_cons_self
  have hnext : max node.delivered (max m.commandIndex m.snapshotIndex) = next := by
    rcases receive_cases hreceive with ⟨hc, hindex, rfl⟩ | ⟨hc, -, rfl⟩
    · have := hm.1 hc
      omega
    · have := hm.2 hc
      omega
  rw [hnext]
  refine ⟨hreceive, e, ⟨hrest, fun m hm => hplain m (List.mem_cons_of_mem _ hm), ?_⟩,
    ⟨hkeeps.snapshot, hkeeps.waiting, hkeeps.applied_le, fun hnot => hkeeps.applied_eq ?_⟩⟩
  · intro msgs' k hk
    cases hk
    exact hends.taken _ k happlying
  · rintro ⟨msgs', k, hbusy⟩
    rw [happlying] at hbusy
    cases hbusy
    exact hnot ⟨_, k, rfl⟩

/-- The second locked section: `LastApplied` catches up with the stream. -/
theorem Runs.applyDone (h : Runs node) (happlying : node.applying = some ([], last)) :
    Runs { node with raft := node.raft.applied last, applying := none } := by
  obtain ⟨e, hends, hkeeps⟩ := h
  have hpending : node.pending = [] := by rw [Node.pending, happlying]
  have hend : node.delivered = e := by
    have hp := hends.pending
    rw [hpending] at hp
    exact Option.some.inj hp
  have hbound := hkeeps.applied_le
  have hwaiting := hkeeps.waiting
  refine ⟨e, hend ▸ ends_idle rfl, ?_⟩
  cases last with
  | none =>
    refine ⟨hkeeps.snapshot, hwaiting, hbound, fun _ => hkeeps.applied_eq ?_⟩
    rintro ⟨msgs, k, hbusy⟩
    rw [happlying] at hbusy
    cases hbusy
  | some k =>
    have hk := hends.taken _ k happlying
    refine ⟨hkeeps.snapshot, ?_, ?_, fun _ => ?_⟩
    · exact hwaiting.trans (Nat.le_max_left _ _)
    · show max node.raft.lastApplied k ≤ max e node.raft.snapshotMsg.snapshotIndex
      omega
    · show max node.raft.lastApplied k = max e node.raft.snapshotMsg.snapshotIndex
      omega

end Loop

/-- A server that starts has received the snapshot on its disk. -/
theorem runs_boot (me : Fin n) (rf : Raft n C) (epoch : Nat) :
    Runs (Node.boot me rf.persister epoch) := by
  unfold Node.boot
  rw [make_eq]
  exact ⟨_, ends_idle rfl,
    ⟨fun hsome => absurd rfl hsome, Nat.zero_le _, Nat.le_max_left _ _,
      fun _ => (Nat.max_zero _).symm⟩⟩

/-! ### Every run -/

/-- A step of a server that does not restart: the messages it delivers are received. -/
theorem ServerStep.runs {msgs : List (ApplyMsg C)} (h : ServerStep w i act node msgs)
    (hcont : Contiguous (w.nodes i).raft.snapshotLastIncludedIndex (w.nodes i).raft.logs)
    (hruns : Runs (w.nodes i)) :
    Runs node ∧ (act ≠ .restart i → receiveAll (w.nodes i).delivered msgs = some node.delivered) := by
  cases h with
  | method hm happlying hdelivered =>
    obtain ⟨last, hends, hkeeps⟩ := hruns
    have hpending : node.pending = (w.nodes i).pending := by
      rw [Node.pending, Node.pending, happlying]
    refine ⟨⟨last, ⟨?_, ?_, ?_⟩, ?_⟩, fun _ => congrArg some hdelivered.symm⟩
    · rw [hdelivered, hpending]
      exact hends.pending
    · rw [hpending]
      exact hends.plain
    · rw [happlying]
      exact hends.taken
    · rw [Node.busy, happlying]
      exact hm.logStep.keeps hends hkeeps
  | applyTake hidle htake => exact ⟨hruns.applyTake hcont hidle htake, fun _ => rfl⟩
  | applySend happlying =>
    obtain ⟨hreceive, hruns'⟩ := hruns.applySend happlying
    refine ⟨hruns', fun _ => ?_⟩
    rw [receiveAll, hreceive]
    rfl
  | applyDone happlying => exact ⟨hruns.applyDone happlying, fun _ => rfl⟩
  | restart => exact ⟨runs_boot i _ _, fun hne => absurd rfl hne⟩

theorem runs_reach (h : (cluster n C).Reach System.anyStep w) (i : Fin n) : Runs (w.nodes i) := by
  refine h.invariant (P := fun w => Runs (w.nodes i)) (runs_boot i (make i {}) 0) ?_
  intro w act w' hreach hruns _ hstep
  obtain ⟨msgs, hserver, -⟩ := serverStep_of_step hstep i
  exact (hserver.runs ((allPositioned hreach).servers i).logs hruns).1

/-- The action does not restart server `i`. -/
def keepsUp (i : Fin n) (_ : World n C) : Action n C → Prop
  | .restart j => j ≠ i
  | _ => True

instance (i : Fin n) (w : World n C) : (a : Action n C) → Decidable (keepsUp i w a)
  | .restart j => inferInstanceAs (Decidable (j ≠ i))
  | .electionTimeout _ | .heartBeat _ | .replicateLog _ _ _ | .updateCommitIndex _ _ | .handle _
  | .lose _ | .ret _ | .start _ _ | .snapshot _ _ _ | .applyTake _ | .applySend _
  | .applyDone _ => isTrue trivial

/-- What one step delivers to a service continues what it has. -/
theorem received_of_step (h : (cluster n C).Reach System.anyStep w) (hup : keepsUp i w act)
    (hstep : (cluster n C).step w act = some w') : ∃ msgs,
    deliveries i w'.trace = deliveries i w.trace ++ msgs ∧
      receiveAll (w.nodes i).delivered msgs = some (w'.nodes i).delivered := by
  obtain ⟨msgs, hserver, htrace⟩ := serverStep_of_step hstep i
  refine ⟨msgs, htrace,
    (hserver.runs ((allPositioned h).servers i).logs (runs_reach h i)).2 fun heq => ?_⟩
  subst heq
  exact absurd rfl hup

theorem received_later (h : (cluster n C).Reach System.anyStep w)
    (hlater : ((cluster n C).startingAt w).Reach (keepsUp i) w') : ∃ msgs,
    deliveries i w'.trace = deliveries i w.trace ++ msgs ∧
      receiveAll (w.nodes i).delivered msgs = some (w'.nodes i).delivered := by
  induction hlater with
  | init => exact ⟨[], (List.append_nil _).symm, rfl⟩
  | @step s s' a hs hup hstep ih =>
    have hreach : (cluster n C).Reach System.anyStep s :=
      System.reach_startingAt h (hs.mono fun _ _ _ _ _ => trivial)
    obtain ⟨msgs, htrace, hall⟩ := ih
    obtain ⟨more, htrace', hmore⟩ := received_of_step hreach hup hstep
    refine ⟨msgs ++ more, by rw [htrace', htrace, List.append_assoc], ?_⟩
    rw [receiveAll_append, hall, Option.bind_some]
    exact hmore

/-- Server `i` is not restarted, and `applyLog` stays within the logs. -/
def servesWithin (i : Fin n) (w : World n C) (act : Action n C) : Prop :=
  appliesWithin w act ∧ keepsUp i w act

instance (i : Fin n) (w : World n C) (act : Action n C) : Decidable (servesWithin i w act) :=
  inferInstanceAs (Decidable (_ ∧ _))

/-- **A service misses no command and receives none twice.** From any state that a timely run
within the logs reaches, with crashes anywhere, and for as long as server `i` stays up: every
command message is the one after all that its service has, and every other message is a snapshot,
which moves it forward or is stale. -/
theorem commands_without_gap {x x' : InMemory (World n C) n C}
    (h : (processes n C).Reach (timely appliesWithin) x)
    (hlater : ((processes n C).startingAt x).Reach (timely (servesWithin i)) x') : ∃ msgs,
    deliveries i x'.state.trace = deliveries i x.state.trace ++ msgs ∧
      receiveAll (x.state.nodes i).delivered msgs = some (x'.state.nodes i).delivered := by
  have hany : (processes n C).Reach System.anyStep x := h.mono fun _ _ _ _ _ => trivial
  have hreach : (cluster n C).Reach System.anyStep x.state :=
    h.map InMemory.state Scheduled.act rfl fun _ _ _ hy hok hstep =>
      ⟨trivial, step_of_within (hy.mono fun _ _ _ _ _ => trivial) hok hstep⟩
  refine received_later hreach (hlater.map (T := (cluster n C).startingAt x.state) InMemory.state
    Scheduled.act rfl fun y _ _ hy hok hstep => ⟨hok.1.2, ?_⟩)
  have hy : (processes n C).Reach System.anyStep y :=
    System.reach_startingAt hany (hy.mono fun _ _ _ _ _ => trivial)
  exact step_of_within hy ⟨hok.1.1, hok.2⟩ hstep

/-- Two entries reach server `k`, then a snapshot that its service has passed and the third entry;
server `j` restarts in between. -/
def staleSnapshot (i j k : Fin n) : List (Action n Nat) :=
  [.electionTimeout i, .handle 0, .ret 0, .start i 10, .start i 11, .replicateLog i j 1, .handle 4,
   .ret 4, .updateCommitIndex i 1, .applyTake i, .applySend i, .replicateLog i k 1,
   .snapshot i 1 [], .replicateLog i k 1, .restart j, .handle 5, .ret 5, .applyTake k, .applySend k,
   .applySend k, .applyDone k, .handle 6, .ret 6, .start i 12, .replicateLog i k 1, .handle 7,
   .ret 7, .updateCommitIndex i 1, .heartBeat i, .handle 9, .applyTake k, .applySend k,
   .applySend k]

theorem staleSnapshot_runs :
    ((((processes 3 Nat).startingAt (processes 3 Nat).init).runWhere (timely (servesWithin 2))
        (processes 3 Nat).init (scheduled [] (staleSnapshot 0 1 2))).map fun x =>
      decide ((deliveries 2 x.state.trace).map (fun m => (m.commandIndex, m.snapshotIndex)) =
        [(1, 0), (2, 0), (0, 1), (3, 0)])) = some true := by
  decide +kernel

theorem commands_without_gap_staleSnapshot : ∃ x : InMemory (World 3 Nat) 3 Nat,
    ((processes 3 Nat).startingAt (processes 3 Nat).init).Reach (timely (servesWithin 2)) x ∧
    (deliveries 2 x.state.trace).map (fun m => (m.commandIndex, m.snapshotIndex)) =
      [(1, 0), (2, 0), (0, 1), (3, 0)] ∧
    ∃ msgs, deliveries 2 x.state.trace =
        deliveries 2 (processes 3 Nat).init.state.trace ++ msgs ∧
      receiveAll 0 msgs = some (x.state.nodes 2).delivered := by
  obtain ⟨x, hrun, hev⟩ := Option.map_eq_some_iff.mp staleSnapshot_runs
  have hlater := System.reach_runWhere (S := (processes 3 Nat).startingAt (processes 3 Nat).init)
    .init _ hrun
  exact ⟨x, hlater, of_decide_eq_true hev, commands_without_gap .init hlater⟩

end RaftLabs.Raft
