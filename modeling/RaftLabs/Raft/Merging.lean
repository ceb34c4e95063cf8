import RaftLabs.Raft.Logs

/-! What `AppendEntries` makes of a follower's log, exactly.

The handler compares the entries of a request with the log, one position after the
other, from the entry behind `PrevLogIndex` on. Positions are counted from the
snapshot and start out negative when `PrevLogIndex` lies inside it. The comparison
stops at the first entry that the log lacks or holds with another term; the log is cut
there and takes the rest of the request. A delayed request whose entries are all there
cuts nothing. -/
namespace RaftLabs.Raft
variable {n : Nat} {C : Type} {rf : Raft n C} {args : AppendEntriesArgs n C}

/-- The server retains an entry with the index and the term of `e`. -/
def Retains (rf : Raft n C) (e : RaftLogEntry C) : Prop :=
  (entryAt rf e.index).map (·.term) = some e.term

instance (rf : Raft n C) (e : RaftLogEntry C) : Decidable (Retains rf e) :=
  inferInstanceAs (Decidable (_ = _))

/-- The server retains every entry that its snapshot does not cover. -/
def RetainsAll (rf : Raft n C) (entries : List (RaftLogEntry C)) : Prop :=
  ∀ e ∈ entries, rf.snapshotLastIncludedIndex < e.index → Retains rf e

/-- Entry `k` is the first one above the snapshot that is missing or has another term. -/
structure FirstMissing (rf : Raft n C) (entries : List (RaftLogEntry C)) (k : Nat) : Prop where
  missing : ∃ e, entries[k]? = some e ∧ rf.snapshotLastIncludedIndex < e.index ∧ ¬ Retains rf e
  before : ∀ j < k, ∀ e, entries[j]? = some e → rf.snapshotLastIncludedIndex < e.index →
    Retains rf e

theorem retains_congr {rf' : Raft n C} (hlogs : rf'.logs = rf.logs)
    (hsnap : rf'.snapshotLastIncludedIndex = rf.snapshotLastIncludedIndex) :
    Retains rf' = Retains rf := by
  funext e
  simp only [Retains, entryAt, hlogs, hsnap]

/-! ### The comparison loop -/

/-- Entry `k` of the request is compared with position `PrevLogIndex + k`, counted
from the snapshot. -/
theorem retains_iff (hent : Contiguous args.prevLogIndex args.entries) {k : Nat}
    {e : RaftLogEntry C} (he : args.entries[k]? = some e)
    (hpos : rf.snapshotLastIncludedIndex < e.index) :
    Retains rf e ↔ ∃ old,
      rf.logs[args.prevLogIndex + k - rf.snapshotLastIncludedIndex]? = some old ∧
        old.term = e.term := by
  have hindex := hent k e he
  have hposition : e.index - rf.snapshotLastIncludedIndex - 1 =
      args.prevLogIndex + k - rf.snapshotLastIncludedIndex := by omega
  rw [Retains, entryAt, if_pos hpos, hposition]
  exact Option.map_eq_some_iff

/-- Where the loop stops is the first missing entry, or the end of the request. -/
theorem firstMissing_of_stopsAfter
    (hlog : Contiguous rf.snapshotLastIncludedIndex rf.logs)
    (hent : Contiguous args.prevLogIndex args.entries) {m : Nat}
    (h : StopsAfter rf.logs ((args.prevLogIndex : Int) - rf.snapshotLastIncludedIndex)
      args.entries m) (hlt : m < args.entries.length) : FirstMissing rf args.entries m := by
  obtain ⟨e, he⟩ : ∃ e, args.entries[m]? = some e := ⟨_, List.getElem?_eq_getElem hlt⟩
  have hindex := hent m e he
  have hstop := h.stop e he
  have hpos : rf.snapshotLastIncludedIndex < e.index := by
    rcases hstop with hpast | ⟨hnonneg, -⟩ <;> omega
  refine ⟨⟨e, he, hpos, fun hretains => ?_⟩, fun j hj e' he' hpos' => ?_⟩
  · obtain ⟨old, hold, hterm⟩ := (retains_iff hent he hpos).mp hretains
    rcases hstop with hpast | ⟨_, old', hold', hdiff⟩
    · have := (List.getElem?_eq_some_iff.mp hold).1
      omega
    · -- both logs carry their indices, so that only the term can differ
      have hsame : ((args.prevLogIndex : Int) - rf.snapshotLastIncludedIndex + m).toNat =
          args.prevLogIndex + m - rf.snapshotLastIncludedIndex := by omega
      rw [hsame, hold] at hold'
      cases hold'
      have := hlog _ old hold
      exact hdiff ⟨by omega, hterm⟩
  · have hindex' := hent j e' he'
    obtain ⟨old, hold, -, hterm⟩ := h.same j hj e' he' (by omega)
    refine (retains_iff hent he' hpos').mpr ⟨old, ?_, hterm⟩
    rw [← hold]
    congr 1
    omega

/-- A loop that runs through the request has found every entry. -/
theorem retainsAll_of_stopsAfter (hent : Contiguous args.prevLogIndex args.entries)
    (h : StopsAfter rf.logs ((args.prevLogIndex : Int) - rf.snapshotLastIncludedIndex)
      args.entries args.entries.length) : RetainsAll rf args.entries := by
  intro e hmem hpos
  obtain ⟨j, he⟩ := List.getElem?_of_mem hmem
  have hj := (List.getElem?_eq_some_iff.mp he).1
  have hindex := hent j e he
  obtain ⟨old, hold, -, hterm⟩ := h.same j hj e he (by omega)
  refine (retains_iff hent he hpos).mpr ⟨old, ?_, hterm⟩
  rw [← hold]
  congr 1
  omega

/-- What a merge leaves: the log cut after the first `m` entries of the request have
been compared, with the rest appended. -/
def mergedAt (rf : Raft n C) (args : AppendEntriesArgs n C) (m : Nat) : Raft n C :=
  { rf with
    logs := rf.logs.take (args.prevLogIndex + m - rf.snapshotLastIncludedIndex) ++
      args.entries.drop m
    lastNewEntryIndex := max rf.lastNewEntryIndex (args.prevLogIndex + args.entries.length) }

/-- Behind a position that the log reaches no slice is out of range. -/
theorem mergeEntries_append (hreach : args.prevLogIndex ≤ rf.endIndex) {m : Nat}
    (hstops : StopsAfter rf.logs ((args.prevLogIndex : Int) - rf.snapshotLastIncludedIndex)
      args.entries m)
    (hscan : mergeScan rf.logs ((args.prevLogIndex : Int) - rf.snapshotLastIncludedIndex)
      args.entries = ((args.prevLogIndex : Int) - rf.snapshotLastIncludedIndex + m,
        args.entries.drop m))
    (hlt : m < args.entries.length) : mergeEntries rf args = some (rf.mergedAt args m, true) := by
  have hne : args.entries ≠ [] := List.ne_nil_of_length_pos (by omega)
  have hrest : args.entries.drop m ≠ [] := by
    intro hnil
    have := List.drop_eq_nil_iff.mp hnil
    omega
  obtain ⟨e, he⟩ : ∃ e, args.entries[m]? = some e := ⟨_, List.getElem?_eq_getElem hlt⟩
  have hlow : (0 : Int) ≤ (args.prevLogIndex : Int) - rf.snapshotLastIncludedIndex + m := by
    rcases hstops.stop e he with hpast | ⟨hnonneg, -⟩ <;> omega
  have hhigh : (args.prevLogIndex : Int) - rf.snapshotLastIncludedIndex + m ≤ rf.logs.length := by
    cases m with
    | zero =>
      simp only [endIndex] at hreach
      omega
    | succ m =>
      -- the entry before the stop was found in the log or lies in the snapshot
      by_cases hneg : (args.prevLogIndex : Int) - rf.snapshotLastIncludedIndex + m < 0
      · omega
      · have hprev : m < args.entries.length := by omega
        obtain ⟨old, hold, -⟩ := hstops.same m (Nat.lt_succ_self m) _
          (List.getElem?_eq_getElem hprev) (by omega)
        have := (List.getElem?_eq_some_iff.mp hold).1
        omega
  have hposition : ((args.prevLogIndex : Int) - rf.snapshotLastIncludedIndex + m).toNat =
      args.prevLogIndex + m - rf.snapshotLastIncludedIndex := by omega
  simp [mergeEntries, hne, hscan, hrest, slice?, hlow, hhigh, hposition, mergedAt]

theorem mergeEntries_total (hreach : args.prevLogIndex ≤ rf.endIndex) :
    ∃ rf' appended, mergeEntries rf args = some (rf', appended) := by
  by_cases hnil : args.entries = []
  · exact ⟨rf, false, by simp [mergeEntries, hnil]⟩
  · obtain ⟨m, hstops, hscan⟩ := mergeScan_stops rf.logs
      ((args.prevLogIndex : Int) - rf.snapshotLastIncludedIndex) args.entries
    rcases Nat.lt_or_eq_of_le hstops.le with hlt | heq
    · exact ⟨_, _, mergeEntries_append hreach hstops hscan hlt⟩
    · exact ⟨{ rf with
          lastNewEntryIndex := max rf.lastNewEntryIndex (args.prevLogIndex + args.entries.length) },
        false, by simp [mergeEntries, hnil, hscan, heq]⟩

/-- The merge leaves a log that has every entry, and cuts one that does not exactly at
the first missing entry. -/
theorem mergeEntries_exact (hlog : Contiguous rf.snapshotLastIncludedIndex rf.logs)
    (hent : Contiguous args.prevLogIndex args.entries)
    (hreach : args.prevLogIndex ≤ rf.endIndex) {rf' : Raft n C} {appended : Bool}
    (h : mergeEntries rf args = some (rf', appended)) :
    RetainsAll rf args.entries ∧ rf'.logs = rf.logs ∨
      ∃ k, FirstMissing rf args.entries k ∧ rf'.logs = (rf.mergedAt args k).logs := by
  by_cases hnil : args.entries = []
  · have hsame : rf = rf' ∧ false = appended := by simpa [mergeEntries, hnil] using h
    exact .inl ⟨by simp [RetainsAll, hnil], by rw [hsame.1]⟩
  · obtain ⟨m, hstops, hscan⟩ := mergeScan_stops rf.logs
      ((args.prevLogIndex : Int) - rf.snapshotLastIncludedIndex) args.entries
    rcases Nat.lt_or_eq_of_le hstops.le with hlt | heq
    · rw [mergeEntries_append hreach hstops hscan hlt] at h
      cases h
      exact .inr ⟨m, firstMissing_of_stopsAfter hlog hent hstops hlt, rfl⟩
    · have hlogs : rf'.logs = rf.logs := by
        simp only [mergeEntries, hnil, hscan, heq, List.drop_length, if_true, if_false] at h
        cases h
        rfl
      exact .inl ⟨retainsAll_of_stopsAfter hent (heq ▸ hstops), hlogs⟩

/-! ### The check of `PrevLogIndex` -/

/-- Looking back for the conflicting term stays inside the log. -/
theorem conflictIndex_total {logs : List (RaftLogEntry C)} (prevTerm found : Nat) {i : Nat}
    (hlen : i < logs.length) : ∃ index, conflictIndex logs prevTerm found i = some index := by
  induction i with
  | zero => exact ⟨found, rfl⟩
  | succ i ih =>
    obtain ⟨index, hindex⟩ := ih (by omega)
    by_cases hterm : (logs[i]).term = prevTerm
    · exact ⟨index, by simp [conflictIndex, List.getElem?_eq_getElem (show i < logs.length by omega),
        hterm, hindex]⟩
    · exact ⟨(logs[i + 1]).index, by
        simp [conflictIndex, List.getElem?_eq_getElem (show i < logs.length by omega),
          List.getElem?_eq_getElem hlen, hterm]⟩

/-- The check reads no position outside the log, and lets a request pass only behind a
position that the log reaches. -/
theorem checkPrev_total (rf : Raft n C) (args : AppendEntriesArgs n C) :
    ∃ check, checkPrev rf args = some check ∧
      (check = .matched → args.prevLogIndex ≤ rf.endIndex) := by
  by_cases hsnap : args.prevLogIndex ≤ rf.snapshotLastIncludedIndex
  · refine ⟨.matched, by simp [checkPrev, hsnap], fun _ => ?_⟩
    exact Nat.le_trans hsnap (Nat.le_add_right _ _)
  · by_cases hend : rf.endIndex < args.prevLogIndex
    · exact ⟨.conflict 0 rf.endIndex, by simp [checkPrev, hsnap, hend], nofun⟩
    · have hlen : args.prevLogIndex - rf.snapshotLastIncludedIndex - 1 < rf.logs.length := by
        simp only [endIndex] at hend
        omega
      have hget := List.getElem?_eq_getElem hlen
      by_cases hterm :
          (rf.logs[args.prevLogIndex - rf.snapshotLastIncludedIndex - 1]).term = args.prevLogTerm
      · exact ⟨.matched, by simp [checkPrev, hsnap, hend, hget, hterm], fun _ => by omega⟩
      · -- the entry at `PrevLogIndex` has its own term, so the loop starts below it
        obtain ⟨index, hindex⟩ := conflictIndex_total
          (rf.logs[args.prevLogIndex - rf.snapshotLastIncludedIndex - 1]).term
          (rf.logs[args.prevLogIndex - rf.snapshotLastIncludedIndex - 1]).index hlen
        exact ⟨.conflict (rf.logs[args.prevLogIndex - rf.snapshotLastIncludedIndex - 1]).term index,
          by simp [checkPrev, hsnap, hend, hget, hterm, conflictIndex, hindex], nofun⟩

/-! ### The handler -/

theorem followCommit_logs (rf : Raft n C) (leaderCommit : Nat) :
    (rf.followCommit leaderCommit).logs = rf.logs := by
  unfold followCommit
  split <;> rfl

/-- Accepting a leader changes nothing that a merge looks at. -/
theorem acceptLeader_merging (rf : Raft n C) (term : Nat) :
    (acceptLeader rf term).1.logs = rf.logs ∧
    (acceptLeader rf term).1.snapshotLastIncludedIndex = rf.snapshotLastIncludedIndex := by
  rw [acceptLeader_frame]
  exact ⟨rfl, rfl⟩

/-- No request makes the handler reach outside a slice. -/
theorem appendEntries_total (rf : Raft n C) (args : AppendEntriesArgs n C) :
    ∃ rf' reply, rf.appendEntries args = some (rf', reply) := by
  by_cases hterm : args.term < rf.currentTerm
  · exact ⟨rf, { term := rf.currentTerm }, by simp [appendEntries, hterm]⟩
  · obtain ⟨check, hcheck, hreach⟩ := checkPrev_total (acceptLeader rf args.term).1 args
    cases check with
    | conflict term index =>
      exact ⟨(acceptLeader rf args.term).1,
        { term := rf.currentTerm, conflict := true, conflictTerm := term, conflictIndex := index },
        by simp [appendEntries, hterm, hcheck]⟩
    | matched =>
      obtain ⟨rf₂, appended, hmerge⟩ := mergeEntries_total (hreach rfl)
      exact ⟨if (acceptLeader rf args.term).2 || appended then
          (rf₂.followCommit args.leaderCommit).persist
        else rf₂.followCommit args.leaderCommit, { term := rf.currentTerm, success := true },
        by simp [appendEntries, hterm, hcheck, hmerge]⟩

/-- **Exact merging.** A request of a term not below the server's is answered. Unless it
succeeds, the log stays. If it succeeds, either the log has all the entries and stays, or
it is cut before the first that is missing and continues with the request from there on. -/
theorem appendEntries_merges (hlog : Contiguous rf.snapshotLastIncludedIndex rf.logs)
    (hterm : rf.currentTerm ≤ args.term) (hent : Contiguous args.prevLogIndex args.entries) :
    ∃ rf' reply, rf.appendEntries args = some (rf', reply) ∧
      (reply.success = false → rf'.logs = rf.logs) ∧
      (reply.success = true →
        (RetainsAll rf args.entries ∧ rf'.logs = rf.logs) ∨
        ∃ k, FirstMissing rf args.entries k ∧ rf'.logs =
          rf.logs.take (args.prevLogIndex + k - rf.snapshotLastIncludedIndex) ++
            args.entries.drop k) := by
  obtain ⟨rf', reply, happ⟩ := appendEntries_total rf args
  obtain ⟨hlogs, hsnap⟩ := acceptLeader_merging rf args.term
  refine ⟨rf', reply, happ, ?_⟩
  rcases appendEntries_cases happ with
    ⟨hlt, -⟩ | ⟨-, rfl, term, index, -, rfl⟩ | ⟨-, hcheck, rfl, rf₂, appended, hmerge, rfl⟩
  · omega
  · exact ⟨fun _ => hlogs, nofun⟩
  · obtain ⟨check, hcheck', hreach⟩ := checkPrev_total (acceptLeader rf args.term).1 args
    have hmatched : check = .matched := Option.some.inj (hcheck'.symm.trans hcheck)
    have hexact := mergeEntries_exact (by rw [hlogs, hsnap]; exact hlog) hent (hreach hmatched)
      hmerge
    have hkept : (if (acceptLeader rf args.term).2 || appended then
          (rf₂.followCommit args.leaderCommit).persist
        else rf₂.followCommit args.leaderCommit).logs = rf₂.logs := by
      split <;> exact followCommit_logs rf₂ args.leaderCommit
    have hretains := retains_congr hlogs hsnap
    refine ⟨nofun, fun _ => ?_⟩
    rw [hkept]
    rcases hexact with ⟨hall, hsame⟩ | ⟨k, hfirst, hcut⟩
    · refine .inl ⟨?_, hsame.trans hlogs⟩
      simpa only [RetainsAll, hretains, hsnap] using hall
    · refine .inr ⟨k, ⟨?_, ?_⟩, ?_⟩
      · simpa only [hretains, hsnap] using hfirst.missing
      · simpa only [hretains, hsnap] using hfirst.before
      · rw [hcut, mergedAt, hlogs, hsnap]

/-- A server that has its snapshot up to index 2 and entries of terms 1, 1 and 2 above. -/
def overlapping (me : Fin n) : Raft n Nat :=
  { make me {} with
    currentTerm := 2
    logs := [⟨13, 1, 3⟩, ⟨14, 1, 4⟩, ⟨15, 2, 5⟩]
    snapshotLastIncludedIndex := 2 }

/-- A request that begins inside that snapshot and disagrees with index 4. -/
def overlap (leader : Fin n) : AppendEntriesArgs n Nat :=
  { term := 3, leaderId := leader, prevLogIndex := 1, prevLogTerm := 1,
    entries := [⟨12, 1, 2⟩, ⟨13, 1, 3⟩, ⟨24, 3, 4⟩], leaderCommit := 0 }

theorem appendEntries_merges_overlap :
    Contiguous 2 (overlapping (0 : Fin 3)).logs ∧ Contiguous 1 (overlap (1 : Fin 3)).entries ∧
    ∃ rf' reply, (overlapping (0 : Fin 3)).appendEntries (overlap 1) = some (rf', reply) ∧
      (reply.success = false → rf'.logs = [⟨13, 1, 3⟩, ⟨14, 1, 4⟩, ⟨15, 2, 5⟩]) ∧
      (reply.success = true →
        (RetainsAll (overlapping (0 : Fin 3)) (overlap (1 : Fin 3)).entries ∧
          rf'.logs = [⟨13, 1, 3⟩, ⟨14, 1, 4⟩, ⟨15, 2, 5⟩]) ∨
        ∃ k, FirstMissing (overlapping (0 : Fin 3)) (overlap (1 : Fin 3)).entries k ∧
          rf'.logs = List.take (1 + k - 2) [⟨13, 1, 3⟩, ⟨14, 1, 4⟩, ⟨15, 2, 5⟩] ++
            List.drop k [⟨12, 1, 2⟩, ⟨13, 1, 3⟩, ⟨24, 3, 4⟩]) := by
  have hlog : Contiguous 2 (overlapping (0 : Fin 3)).logs := by
    simp [overlapping]
  have hent : Contiguous 1 (overlap (1 : Fin 3)).entries := by
    simp [overlap]
  exact ⟨hlog, hent, appendEntries_merges hlog (by decide) hent⟩

end RaftLabs.Raft
