import RaftLabs.Raft.Ballots

/-! What each method does to a server's log.

A log is kept from `SnapshotLastIncludedIndex` on; position `p` of `Logs` has index
`SnapshotLastIncludedIndex + p + 1` as long as the log is `Contiguous`. The lemmas
here say in these terms what the loops and slices of the methods compute. -/
namespace RaftLabs.Raft
variable {n : Nat} {C : Type}

/-! ### Positions and slices -/

theorem at?_eq_some {α : Type} {l : List α} {i : Int} {x : α} (h : at? l i = some x) :
    0 ≤ i ∧ l[i.toNat]? = some x := by
  unfold at? at h
  split at h
  · exact ⟨‹_›, h⟩
  · cases h

theorem slice?_eq_some {α : Type} {l m : List α} {lo hi : Int} (h : slice? l lo hi = some m) :
    0 ≤ lo ∧ lo ≤ hi ∧ hi ≤ l.length ∧ m = (l.take hi.toNat).drop lo.toNat := by
  unfold slice? at h
  split at h
  · obtain ⟨hlo, hle, hhi⟩ := ‹_ ∧ _›
    exact ⟨hlo, hle, hhi, (Option.some.inj h).symm⟩
  · cases h

/-- The entries of `logs` carry their indices, counted from the snapshot. -/
def Contiguous (snap : Nat) (logs : List (RaftLogEntry C)) : Prop :=
  ∀ p e, logs[p]? = some e → e.index = snap + p + 1

@[simp] theorem contiguous_nil (snap : Nat) : Contiguous snap ([] : List (RaftLogEntry C)) := nofun

@[simp] theorem contiguous_cons {snap : Nat} {e : RaftLogEntry C} {logs : List (RaftLogEntry C)} :
    Contiguous snap (e :: logs) ↔ e.index = snap + 1 ∧ Contiguous (snap + 1) logs := by
  constructor
  · intro h
    refine ⟨h 0 e rfl, fun p e' he' => ?_⟩
    have := h (p + 1) e' he'
    omega
  · rintro ⟨hfirst, hrest⟩ p e' he'
    cases p with
    | zero =>
      cases he'
      exact hfirst
    | succ p =>
      have := hrest p e' he'
      omega

/-- The entry that the server retains at `index`. -/
def entryAt (rf : Raft n C) (index : Nat) : Option (RaftLogEntry C) :=
  if rf.snapshotLastIncludedIndex < index then
    rf.logs[index - rf.snapshotLastIncludedIndex - 1]?
  else none

/-! ### AppendEntries -/

/-- `PrevLogIndex` passes the check when the snapshot covers it or the entry there
has `PrevLogTerm`. -/
theorem checkPrev_matched {rf : Raft n C} {args : AppendEntriesArgs n C}
    (h : checkPrev rf args = some .matched) :
    args.prevLogIndex ≤ rf.snapshotLastIncludedIndex ∨
    (rf.snapshotLastIncludedIndex < args.prevLogIndex ∧
      ∃ e, rf.logs[args.prevLogIndex - rf.snapshotLastIncludedIndex - 1]? = some e ∧
        e.term = args.prevLogTerm) := by
  unfold checkPrev at h
  split at h
  · exact .inl ‹_›
  · rename_i hgt
    split at h
    · cases h
    · simp only [Option.bind_eq_bind, Option.bind_eq_some_iff] at h
      obtain ⟨e, he, h⟩ := h
      split at h
      · simp only [Option.bind_eq_some_iff] at h
        obtain ⟨_, _, h⟩ := h
        cases h
      · exact .inr ⟨Nat.lt_of_not_le hgt, e, he, not_not.mp ‹_›⟩

/-- The comparison loop stops after `m` entries: everything before agreed in index and
term, except what lies in the snapshot; the next entry is past the log's end or
differs. -/
structure StopsAfter (logs : List (RaftLogEntry C)) (index : Int)
    (entries : List (RaftLogEntry C)) (m : Nat) : Prop where
  le : m ≤ entries.length
  same : ∀ j < m, ∀ e, entries[j]? = some e → 0 ≤ index + j → ∃ old,
    logs[(index + j).toNat]? = some old ∧ old.index = e.index ∧ old.term = e.term
  stop : ∀ e, entries[m]? = some e → (logs.length : Int) ≤ index + m ∨
    (0 ≤ index + m ∧ ∃ old, logs[(index + m).toNat]? = some old ∧
      ¬ (old.index = e.index ∧ old.term = e.term))

theorem StopsAfter.cons {logs rest : List (RaftLogEntry C)} {index : Int} {e : RaftLogEntry C}
    {m : Nat} (h : StopsAfter logs (index + 1) rest m)
    (hpass : 0 ≤ index → ∃ old, logs[index.toNat]? = some old ∧ old.index = e.index ∧
      old.term = e.term) : StopsAfter logs index (e :: rest) (m + 1) where
  le := Nat.succ_le_succ h.le
  same j hj e' he' hpos := by
    cases j with
    | zero =>
      cases he'
      simpa using hpass (by simpa using hpos)
    | succ j =>
      have hshift : index + ((j + 1 : Nat) : Int) = index + 1 + (j : Int) := by omega
      rw [hshift] at hpos ⊢
      exact h.same j (by omega) e' (by simpa using he') hpos
  stop e' he' := by
    have hshift : index + ((m + 1 : Nat) : Int) = index + 1 + (m : Int) := by omega
    rw [hshift]
    exact h.stop e' (by simpa using he')

theorem mergeScan_stops (logs : List (RaftLogEntry C)) (index : Int)
    (entries : List (RaftLogEntry C)) :
    ∃ m, StopsAfter logs index entries m ∧
      mergeScan logs index entries = (index + m, entries.drop m) := by
  induction entries generalizing index with
  | nil => exact ⟨0, ⟨Nat.le_refl _, nofun, nofun⟩, by simp [mergeScan]⟩
  | cons e rest ih =>
    obtain ⟨m, hm, hscan⟩ := ih (index + 1)
    have hnext : mergeScan logs (index + 1) rest =
        (index + ((m + 1 : Nat) : Int), (e :: rest).drop (m + 1)) := by
      rw [hscan, List.drop_succ_cons]
      congr 1
      omega
    by_cases hlen : index < logs.length
    · by_cases hneg : index < 0
      · refine ⟨m + 1, hm.cons fun h => absurd h (by omega), ?_⟩
        rw [← hnext]
        simp [mergeScan, hlen, hneg]
      · obtain ⟨old, hold⟩ : ∃ old, logs[index.toNat]? = some old :=
          ⟨_, List.getElem?_eq_getElem (by omega)⟩
        by_cases hsame : old.index = e.index ∧ old.term = e.term
        · refine ⟨m + 1, hm.cons fun _ => ⟨old, hold, hsame⟩, ?_⟩
          rw [← hnext]
          simp [mergeScan, hlen, hneg, hold, hsame]
        · refine ⟨0, ⟨Nat.zero_le _, nofun, fun e' he' => ?_⟩, ?_⟩
          · cases he'
            refine .inr ⟨by omega, old, ?_, hsame⟩
            simpa using hold
          · have hdiff := not_and_or.mp hsame
            simp [mergeScan, hlen, hneg, hold, hdiff]
    · refine ⟨0, ⟨Nat.zero_le _, nofun, fun e' he' => .inl ?_⟩, by simp [mergeScan, hlen]⟩
      simpa using hlen

/-- The three ways through steps 3 and 4: no entries; all entries there already; or the
log is cut where the loop stopped and the rest is appended. -/
theorem mergeEntries_cases {rf rf' : Raft n C} {args : AppendEntriesArgs n C} {appended : Bool}
    (h : mergeEntries rf args = some (rf', appended)) :
    (args.entries = [] ∧ rf' = rf ∧ appended = false) ∨
    ∃ m ≤ args.entries.length, args.entries ≠ [] ∧
      (∀ j < m, ∀ e, args.entries[j]? = some e → rf.snapshotLastIncludedIndex ≤ args.prevLogIndex + j →
        ∃ old, rf.logs[args.prevLogIndex + j - rf.snapshotLastIncludedIndex]? = some old ∧
          old.term = e.term) ∧
      ((m = args.entries.length ∧ appended = false ∧ rf' = { rf with
          lastNewEntryIndex :=
            max rf.lastNewEntryIndex (args.prevLogIndex + args.entries.length) }) ∨
       (m < args.entries.length ∧ appended = true ∧
        rf.snapshotLastIncludedIndex ≤ args.prevLogIndex + m ∧
        args.prevLogIndex + m ≤ rf.snapshotLastIncludedIndex + rf.logs.length ∧
        (∀ e, args.entries[m]? = some e →
          rf.logs[args.prevLogIndex + m - rf.snapshotLastIncludedIndex]? ≠ some e) ∧
        rf' = { rf with
          logs := rf.logs.take (args.prevLogIndex + m - rf.snapshotLastIncludedIndex) ++
            args.entries.drop m
          lastNewEntryIndex :=
            max rf.lastNewEntryIndex (args.prevLogIndex + args.entries.length) })) := by
  unfold mergeEntries at h
  split at h
  · obtain ⟨rfl, rfl⟩ := by simpa using h
    exact .inl ⟨‹_›, rfl, rfl⟩
  · rename_i hne
    obtain ⟨m, ⟨hm, hsame, hstop⟩, hscan⟩ := mergeScan_stops rf.logs
      ((args.prevLogIndex : Int) - rf.snapshotLastIncludedIndex) args.entries
    rw [hscan] at h
    dsimp only at h
    refine .inr ⟨m, hm, hne, fun j hj e he hpos => ?_, ?_⟩
    · obtain ⟨old, hold, _, hterm⟩ := hsame j hj e he (by omega)
      refine ⟨old, ?_, hterm⟩
      rw [← hold]
      congr 1
      omega
    · split at h
      · rename_i hnil
        obtain ⟨rfl, rfl⟩ := by simpa using h
        refine .inl ⟨?_, rfl, rfl⟩
        have := List.drop_eq_nil_iff.mp hnil
        omega
      · rename_i hrest
        simp only [Option.bind_eq_bind, Option.bind_eq_some_iff, Option.pure_def,
          Option.some.injEq, Prod.mk.injEq] at h
        obtain ⟨kept, hkept, rfl, rfl⟩ := h
        obtain ⟨_, hlo, hhi, rfl⟩ := slice?_eq_some hkept
        have hlt : m < args.entries.length := by
          by_contra hge
          exact hrest (List.drop_eq_nil_iff.mpr (by omega))
        have hpos : ((args.prevLogIndex : Int) - rf.snapshotLastIncludedIndex + m).toNat =
            args.prevLogIndex + m - rf.snapshotLastIncludedIndex := by omega
        refine .inr ⟨hlt, rfl, by omega, by omega, fun e he heq => ?_, ?_⟩
        · rcases hstop e he with hpast | ⟨_, old, hold, hdiff⟩
          · have := (List.getElem?_eq_some_iff.mp heq).1
            omega
          · rw [hpos, heq] at hold
            cases hold
            exact hdiff ⟨rfl, rfl⟩
        · rw [hpos]
          rfl

/-! ### Snapshots -/

/-- `makeRaftState` does not panic. -/
theorem makeRaftState_total (rf : Raft n C) (upperbound : Nat) :
    ∃ saved, makeRaftState rf upperbound = some saved := by
  unfold makeRaftState
  split
  · exact ⟨_, rfl⟩
  · rename_i first rest hlogs
    split
    · exact ⟨_, rfl⟩
    · rename_i hgt
      have hlen : 0 < rf.logs.length := by
        rw [hlogs]
        exact Nat.succ_pos _
      have hcut : min (upperbound - first.index) rf.logs.length - 1 < rf.logs.length := by omega
      simp only [List.getElem?_eq_getElem hcut, Option.bind_eq_bind, Option.bind_some,
        Option.pure_def]
      exact ⟨_, rfl⟩

/-- What `makeRaftState` keeps of a contiguous log: the entries past the bound, the
larger snapshot index, and the term of the last entry it cut, if it cut any. -/
theorem makeRaftState_log {rf : Raft n C} {s : Nat} {saved : RaftState n C}
    (h : makeRaftState rf (s + 1) = some saved)
    (hcont : Contiguous rf.snapshotLastIncludedIndex rf.logs) :
    saved.logs = rf.logs.drop (s - rf.snapshotLastIncludedIndex) ∧
    saved.snapshotLastIncludedIndex = max rf.snapshotLastIncludedIndex s ∧
    ((rf.logs = [] ∨ s ≤ rf.snapshotLastIncludedIndex) ∧
        saved.snapshotLastIncludedTerm = rf.snapshotLastIncludedTerm ∨
      rf.snapshotLastIncludedIndex < s ∧
        ∃ e, rf.logs[min (s - rf.snapshotLastIncludedIndex) rf.logs.length - 1]? = some e ∧
          saved.snapshotLastIncludedTerm = e.term) := by
  unfold makeRaftState at h
  split at h
  · rename_i hnil
    cases h
    exact ⟨by simp [raftState, hnil], rfl, .inl ⟨.inl hnil, rfl⟩⟩
  · rename_i first rest hlogs
    have hfirst : first.index = rf.snapshotLastIncludedIndex + 1 :=
      hcont 0 first (by rw [hlogs]; rfl)
    rw [hfirst] at h
    split at h
    · rename_i hle
      cases h
      have hz : s - rf.snapshotLastIncludedIndex = 0 := by omega
      refine ⟨?_, rfl, .inl ⟨.inr (by omega), rfl⟩⟩
      rw [hz, List.drop_zero]
      rfl
    · rename_i hgt
      have hsub : s + 1 - (rf.snapshotLastIncludedIndex + 1) = s - rf.snapshotLastIncludedIndex := by
        omega
      simp only [hsub, Option.bind_eq_bind, Option.bind_eq_some_iff, Option.pure_def,
        Option.some.injEq] at h
      obtain ⟨last, hlast, rfl⟩ := h
      have hidx := hcont _ last hlast
      have hpos : 0 < rf.logs.length := by
        rw [hlogs]
        exact Nat.succ_pos _
      refine ⟨?_, ?_, .inr ⟨by omega, last, hlast, rfl⟩⟩
      · dsimp only
        rcases Nat.le_total (s - rf.snapshotLastIncludedIndex) rf.logs.length with hle | hle
        · rw [Nat.min_eq_left hle]
        · rw [Nat.min_eq_right hle, List.drop_eq_nil_of_le (Nat.le_refl _),
            List.drop_eq_nil_of_le hle]
      · dsimp only
        rw [hidx]
        omega

/-! ### Committing and applying -/

theorem commitScan_spec {rf : Raft n C} {leaderTerm index : Nat} {logs : List (RaftLogEntry C)}
    (h : commitScan rf leaderTerm logs = some index) :
    ∃ e ∈ logs, e.term = leaderTerm ∧ e.index = index ∧ n / 2 < rf.replicas index := by
  induction logs with
  | nil => cases h
  | cons e rest ih =>
    unfold commitScan at h
    split at h
    · cases h
    · rename_i hterm
      split at h
      · rename_i hhalf
        cases h
        exact ⟨e, List.mem_cons_self, not_not.mp hterm, rfl, hhalf⟩
      · obtain ⟨e', he', hspec⟩ := ih h
        exact ⟨e', List.mem_cons_of_mem _ he', hspec⟩

/-- The entries taken for application are the log's from `LastApplied` to
`CommitIndex`. -/
theorem applyLogs_mem {rf : Raft n C} {logs : List (RaftLogEntry C)} (h : applyLogs rf = some logs)
    {e : RaftLogEntry C} (he : e ∈ logs) :
    ∃ p, rf.logs[p]? = some e ∧ rf.lastApplied ≤ rf.snapshotLastIncludedIndex + p ∧
      rf.snapshotLastIncludedIndex + p < rf.commitIndex := by
  unfold applyLogs at h
  split at h
  · obtain ⟨hlo, hle, hhi, rfl⟩ := slice?_eq_some h
    obtain ⟨j, hj⟩ := List.getElem?_of_mem he
    rw [List.getElem?_drop, List.getElem?_take] at hj
    split at hj
    · exact ⟨_, hj, by omega, by omega⟩
    · cases hj
  · cases h
    cases he

/-! ### Accepting a leader -/

/-- Accepting a leader touches no log, index table or saved state. -/
theorem acceptLeader_frame (rf : Raft n C) (term : Nat) :
    (acceptLeader rf term).1 = { rf with
      state := .follower
      currentTerm := (acceptLeader rf term).1.currentTerm
      votedFor := (acceptLeader rf term).1.votedFor
      leaderTerm := (acceptLeader rf term).1.leaderTerm
      lastNewEntryIndex := (acceptLeader rf term).1.lastNewEntryIndex } := by
  by_cases hl : rf.leaderTerm = some term <;> by_cases hlt : rf.currentTerm < term <;>
    simp [acceptLeader, hl, hlt]

/-- The check reads the log alone. -/
theorem checkPrev_acceptLeader (rf : Raft n C) (term : Nat) (args : AppendEntriesArgs n C) :
    (acceptLeader rf term).1.checkPrev args = rf.checkPrev args := by
  rw [acceptLeader_frame]
  rfl

theorem acceptLeader_leaderTerm (rf : Raft n C) (term : Nat) :
    (acceptLeader rf term).1.leaderTerm = some term := by
  by_cases hl : rf.leaderTerm = some term <;> by_cases hlt : rf.currentTerm < term <;>
    simp [acceptLeader, hl, hlt]

/-- The verified index survives only inside a term whose leader is known. -/
theorem acceptLeader_lastNewEntryIndex (rf : Raft n C) {term : Nat} (h : rf.currentTerm ≤ term) :
    (acceptLeader rf term).1.lastNewEntryIndex = rf.commitIndex ∨
    (rf.currentTerm = term ∧ rf.leaderTerm = some term ∧
      (acceptLeader rf term).1.lastNewEntryIndex = rf.lastNewEntryIndex) := by
  by_cases hl : rf.leaderTerm = some term <;> by_cases hlt : rf.currentTerm < term
  · simp [acceptLeader, hl, hlt]
  · exact .inr ⟨by omega, hl, by simp [acceptLeader, hl, hlt]⟩
  · simp [acceptLeader, hl, hlt]
  · simp [acceptLeader, hl, hlt]

/-- When `stateChange` is false, the server was already in the term. -/
theorem acceptLeader_unchanged {rf : Raft n C} {term : Nat}
    (h : (acceptLeader rf term).2 = false) (hle : rf.currentTerm ≤ term) :
    rf.currentTerm = term := by
  by_contra hne
  have hlt : rf.currentTerm < term := by omega
  by_cases hl : rf.leaderTerm = some term <;> simp [acceptLeader, hl, hlt] at h

/-! ### What a leader sends -/

/-- The entries that go to server `j`: all that follow the one before `NextIndex`. -/
structure Replicates (rf : Raft n C) (j : Fin n) (args : AppendEntriesArgs n C) : Prop where
  term : args.term = rf.currentTerm
  commit : args.leaderCommit = rf.commitIndex
  next : args.prevLogIndex + 1 = rf.nextIndex j
  snap : rf.snapshotLastIncludedIndex ≤ args.prevLogIndex
  prev : Precedes rf (rf.nextIndex j) args.prevLogIndex args.prevLogTerm
  entries : args.entries = rf.logs.drop (args.prevLogIndex - rf.snapshotLastIncludedIndex)

/-- In a contiguous log the predecessor that `replicateLog` names stands where it looks it up. -/
theorem replicates_of_replicateLog {rf : Raft n C} {j : Fin n} {args : AppendEntriesArgs n C}
    (h : Contiguous rf.snapshotLastIncludedIndex rf.logs)
    (hrep : replicateLog rf j = some (.entries args)) : Replicates rf j args := by
  rcases replicateLog_cases hrep with heq | ⟨_, heq⟩ |
    ⟨hlt, prevIndex, prevTerm, entries, hslice, hprev, heq⟩
  · cases heq
  · cases heq
  · cases heq
    have hnext : prevIndex + 1 = rf.nextIndex j := by
      rcases hprev with ⟨hnext, hsnap, -⟩ | ⟨-, prev, hat, hindex, -⟩
      · omega
      · obtain ⟨hnonneg, hget⟩ := at?_eq_some hat
        have := h _ prev hget
        omega
    obtain ⟨-, -, -, rfl⟩ := slice?_eq_some hslice
    constructor
    case term => rfl
    case commit => rfl
    case next => exact hnext
    case snap => exact Nat.le_of_lt_succ (hnext ▸ hlt)
    case prev => exact hprev.imp And.right And.right
    case entries =>
      have hoffset : ((rf.nextIndex j : Int) - rf.snapshotLastIncludedIndex - 1).toNat =
          prevIndex - rf.snapshotLastIncludedIndex := by omega
      dsimp only
      rw [Int.toNat_natCast, List.take_length, hoffset]

end RaftLabs.Raft
