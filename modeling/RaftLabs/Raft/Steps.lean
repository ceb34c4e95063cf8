import RaftLabs.Raft.Cluster

/-! The step function read backwards: everything one action can do.

`Stepped w a w'` lists the outcomes of an action with the guards that led to
them, one constructor for each locked section that changes something. Every
invariant of the cluster is proved over it. -/
namespace RaftLabs.Raft
variable {n : Nat} {C : Type}

namespace World

/-- The node of server `i` after `electionTimeout`. -/
def candidate (w : World n C) (i : Fin n) : Node n C :=
  let node := w.nodes i
  { node with
    raft := (prepareElection node.raft).1
    votes := Function.update node.votes (node.raft.currentTerm + 1) 1
    done := Function.update node.done (node.raft.currentTerm + 1) false }

/-- The node of server `i` after one more vote in `term`. -/
def counted (w : World n C) (i : Fin n) (term : Nat) : Node n C :=
  let node := w.nodes i
  { node with votes := Function.update node.votes term (node.votes term + 1) }

/-- The node of server `i` after the vote that made it leader. -/
def elected (w : World n C) (i : Fin n) : Node n C :=
  let node := w.counted i (w.nodes i).raft.currentTerm
  { node with
    raft := node.raft.becomeLeader
    done := Function.update node.done node.raft.currentTerm true
    leading := node.raft.currentTerm :: node.leading }

/-- The world just after server `i` became leader, before its heartbeats. -/
def elect (w : World n C) (i : Fin n) : World n C :=
  (w.setNode i (w.elected i)).observe [.lead i (w.nodes i).raft.currentTerm]

end World

open World

/-! ### World updates -/

@[simp] theorem setNode_self (w : World n C) (i : Fin n) (node : Node n C) :
    (w.setNode i node).nodes i = node := by
  simp [setNode]

theorem setNode_ne (w : World n C) {i j : Fin n} (node : Node n C) (h : j ≠ i) :
    (w.setNode i node).nodes j = w.nodes j := by
  simp [setNode, h]

/-- What holds of every node and of the new one holds of every node afterwards. -/
theorem forall_setNode {w : World n C} {i : Fin n} {node : Node n C} {P : Fin n → Node n C → Prop}
    (h : ∀ v, P v (w.nodes v)) (hi : P i node) (v : Fin n) : P v ((w.setNode i node).nodes v) := by
  by_cases hv : v = i
  · subst hv
    rw [setNode_self]
    exact hi
  · rw [setNode_ne w node hv]
    exact h v

@[simp] theorem setNode_calls (w : World n C) (i : Fin n) (node : Node n C) :
    (w.setNode i node).calls = w.calls := rfl

@[simp] theorem setNode_trace (w : World n C) (i : Fin n) (node : Node n C) :
    (w.setNode i node).trace = w.trace := rfl

@[simp] theorem send_nodes (w : World n C) (calls : List (Call n C)) :
    (w.send calls).nodes = w.nodes := rfl

@[simp] theorem send_trace (w : World n C) (calls : List (Call n C)) :
    (w.send calls).trace = w.trace := rfl

@[simp] theorem send_calls (w : World n C) (calls : List (Call n C)) :
    (w.send calls).calls = w.calls ++ calls := rfl

@[simp] theorem advance_nodes (w : World n C) (k : Nat) (c : Call n C) (p : Progress) :
    (w.advance k c p).nodes = w.nodes := rfl

@[simp] theorem advance_trace (w : World n C) (k : Nat) (c : Call n C) (p : Progress) :
    (w.advance k c p).trace = w.trace := rfl

@[simp] theorem advance_calls (w : World n C) (k : Nat) (c : Call n C) (p : Progress) :
    (w.advance k c p).calls = w.calls.set k { c with progress := p } := rfl

@[simp] theorem observe_nodes (w : World n C) (events : List (Event n C)) :
    (w.observe events).nodes = w.nodes := rfl

@[simp] theorem observe_calls (w : World n C) (events : List (Event n C)) :
    (w.observe events).calls = w.calls := rfl

@[simp] theorem observe_trace (w : World n C) (events : List (Event n C)) :
    (w.observe events).trace = w.trace ++ events := rfl

/-! ### Outcomes -/

/-- The outcomes of an action. -/
inductive Stepped (w : World n C) : Action n C → World n C → Prop where
  | idle {a : Action n C} : Stepped w a w
  | panic {a : Action n C} (i : Fin n) : Stepped w a (w.panic i)
  | election (i : Fin n) (hstate : (w.nodes i).raft.state ≠ .leader) :
      Stepped w (.electionTimeout i)
        (((w.setNode i (w.candidate i)).send ((others i).map fun j =>
            w.call i j (.requestVote (prepareElection (w.nodes i).raft).2))).observe
          [.vote i i ((w.nodes i).raft.currentTerm + 1)])
  | heartBeat (i : Fin n) (hstate : (w.nodes i).raft.state = .leader) :
      Stepped w (.heartBeat i) (w.sendHeartBeat i)
  | replicateSnapshot (i j : Fin n) (hj : j ≠ i)
      (hlead : (w.nodes i).raft.currentTerm ∈ (w.nodes i).leading) (args : InstallSnapshotArg n)
      (h : replicateLog (w.nodes i).raft j = some (.snapshot args)) :
      Stepped w (.replicateLog i j (w.nodes i).raft.currentTerm)
        (w.send [w.call i j (.installSnapshot args)])
  | replicateEntries (i j : Fin n) (hj : j ≠ i)
      (hlead : (w.nodes i).raft.currentTerm ∈ (w.nodes i).leading) (args : AppendEntriesArgs n C)
      (h : replicateLog (w.nodes i).raft j = some (.entries args)) :
      Stepped w (.replicateLog i j (w.nodes i).raft.currentTerm)
        (w.send [w.call i j (.appendEntries args)])
  | commit (i : Fin n) (hlead : (w.nodes i).raft.currentTerm ∈ (w.nodes i).leading) (index : Nat)
      (h : commitScan (w.nodes i).raft (w.nodes i).raft.currentTerm (w.nodes i).raft.logs.reverse =
        some index) :
      Stepped w (.updateCommitIndex i (w.nodes i).raft.currentTerm)
        ((w.setRaft i { (w.nodes i).raft with
            commitIndex := max (w.nodes i).raft.commitIndex index }).observe
          [.commit i (w.nodes i).raft.currentTerm (max (w.nodes i).raft.commitIndex index)
            (w.nodes i).raft.logs])
  | requestVote (k : Nat) (c : Call n C) (args : RequestVoteArgs n) (hk : w.calls[k]? = some c)
      (hargs : c.args = .requestVote args) (hsent : c.progress = .sent) :
      Stepped w (.handle k)
        (((w.setRaft c.dst ((w.nodes c.dst).raft.requestVote args).1).advance k c
            (.handled (.requestVote ((w.nodes c.dst).raft.requestVote args).2))).observe
          (if ((w.nodes c.dst).raft.requestVote args).2.voteGranted then
            [.vote c.dst args.candidateId args.term] else []))
  | appendEntries (k : Nat) (c : Call n C) (args : AppendEntriesArgs n C)
      (hk : w.calls[k]? = some c) (hargs : c.args = .appendEntries args)
      (hsent : c.progress = .sent) (rf : Raft n C) (reply : AppendEntriesReply)
      (h : (w.nodes c.dst).raft.appendEntries args = some (rf, reply)) :
      Stepped w (.handle k)
        ((w.setRaft c.dst rf).advance k c (.handled (.appendEntries reply)))
  | installSnapshot (k : Nat) (c : Call n C) (args : InstallSnapshotArg n)
      (hk : w.calls[k]? = some c) (hargs : c.args = .installSnapshot args)
      (hsent : c.progress = .sent) (rf : Raft n C) (reply : InstallSnapshotReply)
      (h : (w.nodes c.dst).raft.installSnapshot args = some (rf, reply)) :
      Stepped w (.handle k)
        ((w.setRaft c.dst rf).advance k c (.handled (.installSnapshot reply)))
  | lose (k : Nat) (c : Call n C) (hk : w.calls[k]? = some c)
      (hopen : ∀ reply, c.progress ≠ .returned reply) :
      Stepped w (.lose k) (w.advance k c .lost)
  | returned (k : Nat) (c : Call n C) (reply : Option Reply) (hk : w.calls[k]? = some c)
      (hreply : ∀ r, reply = some r → c.progress = .handled r)
      (hopen : ∀ reply, c.progress ≠ .returned reply) :
      Stepped w (.ret k) (w.advance k c (.returned reply))
  | returnedPanic (k : Nat) (c : Call n C) (reply : Option Reply) (hk : w.calls[k]? = some c)
      (hreply : ∀ r, reply = some r → c.progress = .handled r)
      (hopen : ∀ reply, c.progress ≠ .returned reply) :
      Stepped w (.ret k) ((w.advance k c (.returned reply)).panic c.src)
  | voteCounted (k : Nat) (c : Call n C) (args : RequestVoteArgs n) (reply : RequestVoteReply)
      (hk : w.calls[k]? = some c) (hargs : c.args = .requestVote args)
      (hreply : c.progress = .handled (.requestVote reply)) (hgrant : reply.voteGranted = true)
      (hepoch : (w.nodes c.src).epoch = c.epoch) :
      Stepped w (.ret k)
        ((w.advance k c (.returned (some (.requestVote reply)))).setNode c.src
          (w.counted c.src args.term))
  | elected (k : Nat) (c : Call n C) (args : RequestVoteArgs n) (reply : RequestVoteReply)
      (hk : w.calls[k]? = some c) (hargs : c.args = .requestVote args)
      (hreply : c.progress = .handled (.requestVote reply)) (hgrant : reply.voteGranted = true)
      (hepoch : (w.nodes c.src).epoch = c.epoch)
      (hterm : (w.nodes c.src).raft.currentTerm = args.term)
      (hvotes : n / 2 < (w.nodes c.src).votes args.term + 1) :
      Stepped w (.ret k)
        (((w.advance k c (.returned (some (.requestVote reply)))).elect c.src).sendHeartBeat c.src)
  | voteRefused (k : Nat) (c : Call n C) (args : RequestVoteArgs n) (reply : RequestVoteReply)
      (hk : w.calls[k]? = some c) (hargs : c.args = .requestVote args)
      (hreply : c.progress = .handled (.requestVote reply))
      (hterm : (w.nodes c.src).raft.currentTerm < reply.term) :
      Stepped w (.ret k)
        ((w.advance k c (.returned (some (.requestVote reply)))).setRaft c.src
          ((w.nodes c.src).raft.stepDown reply.term).persist)
  | appendReturned (k : Nat) (c : Call n C) (args : AppendEntriesArgs n C) (reply : Option Reply)
      (rf : Raft n C) (hk : w.calls[k]? = some c) (hargs : c.args = .appendEntries args)
      (hreply : ∀ r, reply = some r → c.progress = .handled r)
      (hopen : ∀ reply, c.progress ≠ .returned reply)
      (hepoch : (w.nodes c.src).epoch = c.epoch)
      (h : (w.nodes c.src).raft.appendEntriesReturned c.dst args (Reply.appendEntries? reply) =
        some rf) :
      Stepped w (.ret k) ((w.advance k c (.returned reply)).setRaft c.src rf)
  | installReturned (k : Nat) (c : Call n C) (args : InstallSnapshotArg n) (reply : Option Reply)
      (hk : w.calls[k]? = some c) (hargs : c.args = .installSnapshot args)
      (hreply : ∀ r, reply = some r → c.progress = .handled r)
      (hopen : ∀ reply, c.progress ≠ .returned reply)
      (hepoch : (w.nodes c.src).epoch = c.epoch) :
      Stepped w (.ret k) ((w.advance k c (.returned reply)).setRaft c.src
        ((w.nodes c.src).raft.installSnapshotReturned c.dst args (Reply.installSnapshot? reply)))
  | start (i : Fin n) (command : C) :
      Stepped w (.start i command) (w.setRaft i ((w.nodes i).raft.start command).1)
  | snapshot (i : Fin n) (index : Nat) (data : Bytes) (hindex : index ≤ (w.nodes i).delivered)
      (rf : Raft n C) (h : (w.nodes i).raft.snapshot index data = some rf) :
      Stepped w (.snapshot i index data) (w.setRaft i rf)
  | applyTake (i : Fin n) (hidle : (w.nodes i).applying = none) (rf : Raft n C)
      (msgs : List (ApplyMsg C)) (last : Option Nat)
      (h : (w.nodes i).raft.applyLog = some (rf, msgs, last)) :
      Stepped w (.applyTake i)
        (w.setNode i { w.nodes i with raft := rf, applying := some (msgs, last) })
  | applySend (i : Fin n) (msg : ApplyMsg C) (rest : List (ApplyMsg C)) (last : Option Nat)
      (h : (w.nodes i).applying = some (msg :: rest, last)) :
      Stepped w (.applySend i) (w.applySend i msg rest last)
  | applyDone (i : Fin n) (last : Option Nat) (h : (w.nodes i).applying = some ([], last)) :
      Stepped w (.applyDone i) (w.applyDone i last)
  | restart (i : Fin n) : Stepped w (.restart i) (w.restart i)

/-! ### Every step is one of them -/

theorem replicate_stepped (w : World n C) (i j : Fin n) (leaderTerm : Nat)
    (hlead : leaderTerm ∈ (w.nodes i).leading) (hj : j ≠ i) :
    Stepped w (.replicateLog i j leaderTerm) (w.replicate i j leaderTerm) := by
  unfold World.replicate
  dsimp only
  split
  · exact .idle
  · rename_i hterm
    have heq : (w.nodes i).raft.currentTerm = leaderTerm := not_not.mp hterm
    subst heq
    split
    · exact .panic i
    · exact .idle
    · exact .replicateSnapshot i j hj hlead _ ‹_›
    · exact .replicateEntries i j hj hlead _ ‹_›

theorem commit_stepped (w : World n C) (i : Fin n) (leaderTerm : Nat)
    (hlead : leaderTerm ∈ (w.nodes i).leading) :
    Stepped w (.updateCommitIndex i leaderTerm) (w.commit i leaderTerm) := by
  unfold World.commit updateCommitIndex
  dsimp only
  split
  · exact .idle
  · rename_i hterm
    have heq : (w.nodes i).raft.currentTerm = leaderTerm := not_not.mp hterm
    subst heq
    cases hscan : commitScan (w.nodes i).raft (w.nodes i).raft.currentTerm
        (w.nodes i).raft.logs.reverse with
    | none => exact .idle
    | some index => exact .commit i hlead index hscan

theorem handle_stepped (w : World n C) (k : Nat) (c : Call n C) (hk : w.calls[k]? = some c)
    (hsent : c.progress = .sent) : Stepped w (.handle k) (w.handle k c) := by
  unfold World.handle
  dsimp only
  cases hargs : c.args with
  | requestVote args => exact .requestVote k c args hk hargs hsent
  | appendEntries args =>
    dsimp only
    cases h : (w.nodes c.dst).raft.appendEntries args with
    | none => exact .panic c.dst
    | some p => exact .appendEntries k c args hk hargs hsent p.1 p.2 h
  | installSnapshot args =>
    dsimp only
    cases h : (w.nodes c.dst).raft.installSnapshot args with
    | none => exact .panic c.dst
    | some p => exact .installSnapshot k c args hk hargs hsent p.1 p.2 h

/-- A vote reply, in the world where its call has already moved on. -/
theorem voteReturned_stepped (w : World n C) (k : Nat) (c : Call n C) (args : RequestVoteArgs n)
    (reply : RequestVoteReply) (hk : w.calls[k]? = some c) (hargs : c.args = .requestVote args)
    (hreply : c.progress = .handled (.requestVote reply))
    (hepoch : (w.nodes c.src).epoch = c.epoch) :
    Stepped w (.ret k)
      ((w.advance k c (.returned (some (.requestVote reply)))).voteReturned c.src args reply) := by
  have hplain : Stepped w (.ret k) (w.advance k c (.returned (some (.requestVote reply)))) :=
    .returned k c _ hk (fun r hr => by cases hr; exact hreply)
      (fun r hr => by rw [hreply] at hr; cases hr)
  unfold World.voteReturned
  dsimp only
  split
  · rename_i hgrant
    split
    · exact .voteCounted k c args reply hk hargs hreply hgrant hepoch
    · rename_i hmore
      split
      · exact .voteCounted k c args reply hk hargs hreply hgrant hepoch
      · rename_i hterm
        have heq : (w.nodes c.src).raft.currentTerm = args.term := not_not.mp hterm
        have hvotes : n / 2 < (w.nodes c.src).votes args.term + 1 := by
          simp only [not_or, half] at hmore
          exact Nat.lt_of_not_le hmore.2
        have hres := Stepped.elected k c args reply hk hargs hreply hgrant hepoch heq hvotes
        simpa [World.elect, World.elected, World.counted, World.advance, World.setCall,
          World.setNode, heq] using hres
  · split
    · exact .voteRefused k c args reply hk hargs hreply ‹_›
    · exact hplain

theorem finish_stepped (w : World n C) (k : Nat) (c : Call n C) (reply : Option Reply)
    (hk : w.calls[k]? = some c) (hreply : ∀ r, reply = some r → c.progress = .handled r)
    (hopen : ∀ reply, c.progress ≠ .returned reply) :
    Stepped w (.ret k) (w.finish k c reply) := by
  unfold World.finish
  dsimp only
  split
  · rename_i hlive
    have hepoch : (w.nodes c.src).epoch = c.epoch := hlive.1
    unfold World.resume
    dsimp only
    cases hargs : c.args with
    | requestVote args =>
      cases reply with
      | none => exact .returned k c none hk hreply hopen
      | some r =>
        cases r with
        | requestVote r => exact voteReturned_stepped w k c args r hk hargs (hreply _ rfl) hepoch
        | appendEntries r => exact .returned k c _ hk hreply hopen
        | installSnapshot r => exact .returned k c _ hk hreply hopen
    | appendEntries args =>
      dsimp only
      cases h : (w.nodes c.src).raft.appendEntriesReturned c.dst args
          (Reply.appendEntries? reply) with
      | none =>
        have hn : ((w.advance k c (.returned reply)).nodes c.src).raft.appendEntriesReturned c.dst
            args (Reply.appendEntries? reply) = none := h
        rw [hn]
        exact .returnedPanic k c reply hk hreply hopen
      | some rf =>
        have hn : ((w.advance k c (.returned reply)).nodes c.src).raft.appendEntriesReturned c.dst
            args (Reply.appendEntries? reply) = some rf := h
        rw [hn]
        exact .appendReturned k c args reply rf hk hargs hreply hopen hepoch h
    | installSnapshot args => exact .installReturned k c args reply hk hargs hreply hopen hepoch
  · exact .returned k c reply hk hreply hopen

/-! ### The steps of a call -/

section Call
variable {w w' : World n C} {k : Nat}

theorem step_handle (h : step w (.handle k) = some w') :
    ∃ c, w.calls[k]? = some c ∧ c.progress = .sent ∧ w' = w.handle k c := by
  simp only [step] at h
  cases hk : w.calls[k]? with
  | none => rw [hk] at h; cases h
  | some c =>
    rw [hk] at h
    cases hp : c.progress with
    | sent =>
      simp only [hp, Option.ite_none_right_eq_some, Option.some.injEq] at h
      exact ⟨c, rfl, hp, h.2.symm⟩
    | handled r => simp [hp] at h
    | lost => simp [hp] at h
    | returned r => simp [hp] at h

theorem step_lose (h : step w (.lose k) = some w') :
    ∃ c, w.calls[k]? = some c ∧ (∀ reply, c.progress ≠ .returned reply) ∧
      w' = w.advance k c .lost := by
  simp only [step] at h
  cases hk : w.calls[k]? with
  | none => rw [hk] at h; cases h
  | some c =>
    rw [hk] at h
    cases hp : c.progress with
    | sent => exact ⟨c, rfl, by simp [hp], by simpa [hp] using h.symm⟩
    | handled r => exact ⟨c, rfl, by simp [hp], by simpa [hp] using h.symm⟩
    | lost => simp [hp] at h
    | returned r => simp [hp] at h

/-- A call returns with the reply of its handler or, when something was lost, without one. -/
theorem step_ret (h : step w (.ret k) = some w') :
    ∃ c reply, w.calls[k]? = some c ∧ (∀ r, reply = some r → c.progress = .handled r) ∧
      (∀ reply, c.progress ≠ .returned reply) ∧ w' = w.finish k c reply := by
  simp only [step] at h
  cases hk : w.calls[k]? with
  | none => rw [hk] at h; cases h
  | some c =>
    rw [hk] at h
    cases hp : c.progress with
    | sent => simp [hp] at h
    | handled r => exact ⟨c, some r, rfl, by simp [hp], by simp [hp], by simpa [hp] using h.symm⟩
    | lost => exact ⟨c, none, rfl, by simp, by simp [hp], by simpa [hp] using h.symm⟩
    | returned r => simp [hp] at h

end Call

theorem stepped {w w' : World n C} {a : Action n C} (h : step w a = some w') : Stepped w a w' := by
  cases a with
  | electionTimeout i =>
    simp only [step, Option.ite_none_right_eq_some, Option.some.injEq] at h
    obtain ⟨⟨_, hstate⟩, rfl⟩ := h
    exact .election i hstate
  | heartBeat i =>
    simp only [step, Option.ite_none_right_eq_some, Option.some.injEq] at h
    obtain ⟨⟨_, hstate⟩, rfl⟩ := h
    exact .heartBeat i hstate
  | replicateLog i j leaderTerm =>
    simp only [step, Option.ite_none_right_eq_some, Option.some.injEq] at h
    obtain ⟨⟨_, hlead, hj⟩, rfl⟩ := h
    exact replicate_stepped w i j leaderTerm hlead hj
  | updateCommitIndex i leaderTerm =>
    simp only [step, Option.ite_none_right_eq_some, Option.some.injEq] at h
    obtain ⟨⟨_, hlead⟩, rfl⟩ := h
    exact commit_stepped w i leaderTerm hlead
  | handle k =>
    obtain ⟨c, hk, hsent, rfl⟩ := step_handle h
    exact handle_stepped w k c hk hsent
  | lose k =>
    obtain ⟨c, hk, hopen, rfl⟩ := step_lose h
    exact .lose k c hk hopen
  | ret k =>
    obtain ⟨c, reply, hk, hreply, hopen, rfl⟩ := step_ret h
    exact finish_stepped w k c reply hk hreply hopen
  | start i command =>
    simp only [step, Option.ite_none_right_eq_some, Option.some.injEq] at h
    obtain ⟨_, rfl⟩ := h
    exact .start i command
  | snapshot i index data =>
    simp only [step, Option.ite_none_right_eq_some] at h
    obtain ⟨⟨_, hindex⟩, h⟩ := h
    cases hs : (w.nodes i).raft.snapshot index data with
    | none =>
      rw [hs] at h
      cases h
      exact .panic i
    | some rf =>
      rw [hs] at h
      cases h
      exact .snapshot i index data hindex rf hs
  | applyTake i =>
    simp only [step, Option.ite_none_right_eq_some, Option.some.injEq] at h
    obtain ⟨⟨_, hidle, _⟩, rfl⟩ := h
    unfold World.applyTake
    cases ha : (w.nodes i).raft.applyLog with
    | none => exact .panic i
    | some p => exact .applyTake i (by simpa using hidle) p.1 p.2.1 p.2.2 ha
  | applySend i =>
    simp only [step] at h
    split at h
    · cases h
      exact .applySend i _ _ _ ‹_›
    · cases h
  | applyDone i =>
    simp only [step] at h
    split at h
    · cases h
      exact .applyDone i _ ‹_›
    · cases h
  | restart i =>
    cases h
    exact .restart i

end RaftLabs.Raft
